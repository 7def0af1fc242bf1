import Logo.Proofs.Reading
import Logo.Proofs.Upheld

/-!
# Operator chains by precedence

An expression is read with a stack of operands and a stack of operators. Its
meaning is that of the grammar

    comparison ::= additive (("<" | ">" | "=") additive)*
    additive   ::= term (("+" | "-") term)*
    term       ::= operand (("*" | "/") operand)*

with every level grouping from the left. `Grammar.comparison` evaluates by this
grammar, one level at a time and without stacks, and knows nothing of binding
strengths; an operand is read as the run itself reads one. The two agree on
values, faults, remaining tokens and everything an operand does on the way.
-/

namespace Logo
set_option autoImplicit false

variable {σ : Type}

/-! ### The grammar -/

namespace Reader

/-- Read `first`, then go on with its value; a fault ends both. -/
def followedBy (first : Reader σ) (next : Option Value → Reader σ) : Reader σ := fun m tokens r =>
  (∃ f m', first m tokens (.failure f m') ∧ r = .failure f m') ∨
  ∃ v rest m', first m tokens (.value v rest m') ∧ next v m' rest r

/-- How a message names what begins with `tokens`. -/
def producer : List Value → String
  | [] => ""
  | v :: _ => v.render

/-- Read an operand that `op` waits for. -/
def outputTo (operand : Reader σ) (op : Operator) : Reader σ := fun m tokens =>
  operand.followedBy (fun v m' rest r => match v with
    | some v => r = .value (some v) rest m'
    | none => r = .failure (.noOutput (producer tokens) op.symbol) m') m tokens

theorem followedBy_assoc (first : Reader σ) (next last : Option Value → Reader σ) :
    (first.followedBy next).followedBy last = first.followedBy fun v => (next v).followedBy last := by
  funext m tokens r
  apply propext
  constructor
  · rintro (⟨f, m', (⟨f', m₁, h, he⟩ | ⟨v, rest, m₁, h, h'⟩), rfl⟩ |
      ⟨v, rest, m', (⟨f', m₁, h, he⟩ | ⟨v₁, rest₁, m₁, h, h'⟩), h''⟩)
    · exact .inl ⟨f', m₁, h, he⟩
    · exact .inr ⟨v, rest, m₁, h, .inl ⟨f, m', h', rfl⟩⟩
    · cases he
    · exact .inr ⟨v₁, rest₁, m₁, h, .inr ⟨v, rest, m', h', h''⟩⟩
  · rintro (⟨f, m', h, rfl⟩ | ⟨v, rest, m₁, h, (⟨f, m', h', rfl⟩ | ⟨v', rest', m', h', h''⟩)⟩)
    · exact .inl ⟨f, m', .inl ⟨f, m', h, rfl⟩, rfl⟩
    · exact .inl ⟨f, m', .inr ⟨v, rest, m₁, h, h'⟩, rfl⟩
    · exact .inr ⟨v', rest', m', .inr ⟨v, rest, m₁, h, h'⟩, h''⟩

end Reader

namespace Grammar

def comparisons : List Operator := [.less, .greater, .equal]

def sums : List Operator := [.add, .subtract]

def products : List Operator := [.multiply, .divide]

/-- The operator that stands first in `tokens`, if it is one of `ops`. -/
def operatorIn? (ops : List Operator) (tokens : List Value) : Option Operator :=
  (operatorAhead? tokens).filter fun op => decide (op ∈ ops)

/-- With `left` read, combine from the left for as long as one of `ops` stands
ahead; what stands to the right of it is read by `right`. -/
inductive Folds (ops : List Operator) (right : Operator → Reader σ) : Option Value → Reader σ where
  | done {v : Option Value} {m : Machine σ} {tokens : List Value} :
      operatorIn? ops tokens = none → Folds ops right v m tokens (.value v tokens m)
  | noLeft {m : Machine σ} {tokens : List Value} {op : Operator} :
      operatorIn? ops tokens = some op →
      Folds ops right none m tokens (.failure (.notEnoughInputs op.symbol) m)
  | noRight {a : Value} {m : Machine σ} {tokens : List Value} {op : Operator} :
      operatorIn? ops tokens = some op → atInputEnd tokens.tail = true →
      Folds ops right (some a) m tokens (.failure (.notEnoughInputs op.symbol) m)
  | rightFails {a : Value} {m m' : Machine σ} {tokens : List Value} {op : Operator} {f : Fault} :
      operatorIn? ops tokens = some op → atInputEnd tokens.tail = false →
      right op m tokens.tail (.failure f m') → Folds ops right (some a) m tokens (.failure f m')
  | applyFails {a b : Value} {m m' : Machine σ} {tokens rest : List Value} {op : Operator} {f : Fault} :
      operatorIn? ops tokens = some op → atInputEnd tokens.tail = false →
      right op m tokens.tail (.value (some b) rest m') → op.apply a b = .error f →
      Folds ops right (some a) m tokens (.failure f m')
  | apply {a b v : Value} {m m' : Machine σ} {tokens rest : List Value} {op : Operator}
      {r : Reading σ} :
      operatorIn? ops tokens = some op → atInputEnd tokens.tail = false →
      right op m tokens.tail (.value (some b) rest m') → op.apply a b = .ok v →
      Folds ops right (some v) m' rest r → Folds ops right (some a) m tokens r

/-- A term that begins with `first`. -/
def term (operand first : Reader σ) : Reader σ :=
  first.followedBy (Folds products fun op => operand.outputTo op)

def additive (operand first : Reader σ) : Reader σ :=
  (term operand first).followedBy (Folds sums fun op => term operand (operand.outputTo op))

def comparison (operand first : Reader σ) : Reader σ :=
  (additive operand first).followedBy
    (Folds comparisons fun op => additive operand (operand.outputTo op))

theorem mem_comparisons (op : Operator) : op ∈ comparisons ↔ op.precedence = 1 := by
  cases op <;> decide

theorem mem_sums (op : Operator) : op ∈ sums ↔ op.precedence = 2 := by
  cases op <;> decide

theorem mem_products (op : Operator) : op ∈ products ↔ op.precedence = 3 := by
  cases op <;> decide

end Grammar

/-! ### The stacks -/

/-- The binding strength of the operator ahead, zero if there is none. -/
def strengthAhead (tokens : List Value) : Nat :=
  match operatorAhead? tokens with
  | some op => op.precedence
  | none => 0

theorem Operator.precedence_bounds (op : Operator) : 1 ≤ op.precedence ∧ op.precedence ≤ 3 := by
  cases op <;> decide

theorem strengthAhead_le (tokens : List Value) : strengthAhead tokens ≤ 3 := by
  unfold strengthAhead
  cases operatorAhead? tokens with
  | none => exact Nat.zero_le 3
  | some op => exact op.precedence_bounds.2

theorem strengthAhead_of_some {tokens : List Value} {op : Operator}
    (h : operatorAhead? tokens = some op) : strengthAhead tokens = op.precedence := by
  simp only [strengthAhead, h]

theorem operatorAhead?_of_strengthAhead {tokens : List Value} (h : strengthAhead tokens = 0) :
    operatorAhead? tokens = none := by
  cases ha : operatorAhead? tokens with
  | none => rfl
  | some op =>
    rw [strengthAhead_of_some ha] at h
    have := op.precedence_bounds
    omega

namespace Chain

/-- Nothing is combined when all operators bind more weakly. -/
theorem settle_of_lt {strength : Nat} {operators : List Operator} (operands : List Value)
    (h : ∀ op ∈ operators, op.precedence < strength) :
    settle strength operands operators = .ok ⟨operands, operators⟩ := by
  cases operators with
  | nil => rfl
  | cons op operators =>
    have := h op List.mem_cons_self
    unfold settle
    rw [if_neg (by omega)]

theorem settle_cons {strength : Nat} {op : Operator} (h : strength ≤ op.precedence) (a b : Value)
    (operands : List Value) (operators : List Operator) :
    settle strength (b :: a :: operands) (op :: operators) =
      match op.apply a b with
      | .ok v => settle strength (v :: operands) operators
      | .error f => .error f := by
  rw [settle]
  exact if_pos h

end Chain

/-- Read one operand, as the run does. -/
def operandReader (between : Engine σ → Engine σ → Prop) : Reader σ := fun m tokens r =>
  (⟨m, .operand, tokens, []⟩ : Config σ).Yields between r

/-- Read an expression, as the run does. -/
def expressionReader (between : Engine σ → Engine σ → Prop) : Reader σ := fun m tokens r =>
  (⟨m, .expression, tokens, []⟩ : Config σ).Yields between r

/-- Read the next operand of a chain and go on with the chain; `yields` says what
going on leads to. -/
def Reader.feeds (right : Reader σ) (yields : Config σ → Reading σ → Prop) (operands : List Value)
    (operators : List Operator) : Reader σ :=
  right.followedBy fun v m tokens r =>
    ∃ b, v = some b ∧ yields ⟨m, .chain ⟨b :: operands, operators⟩, tokens, []⟩ r

theorem Reader.feeds_imp {right : Reader σ} {yields yields' : Config σ → Reading σ → Prop}
    {operands : List Value} {operators : List Operator} {m : Machine σ} {tokens : List Value}
    {r : Reading σ} (h : right.feeds yields operands operators m tokens r)
    (hy : ∀ c r, yields c r → yields' c r) : right.feeds yields' operands operators m tokens r := by
  obtain h | ⟨v, rest, m', h, b, hb, hr⟩ := h
  · exact .inl h
  · exact .inr ⟨v, rest, m', h, b, hb, hy _ _ hr⟩

section Steps

variable {between : Engine σ → Engine σ → Prop} {n : Nat} {c : Chain} {m : Machine σ}
variable {tokens : List Value} {r : Reading σ}

/-- Going on with a chain that has been settled for the operator ahead. -/
def Chain.goesOn (between : Engine σ → Engine σ → Prop) (yields : Config σ → Reading σ → Prop)
    (c : Chain) : Reader σ := fun m tokens r =>
  match operatorAhead? tokens with
  | none => r = .value c.operands.head? tokens m
  | some op =>
    if atInputEnd tokens.tail then r = .failure (.notEnoughInputs op.symbol) m
    else ((operandReader between).outputTo op).feeds yields c.operands (op :: c.operators) m
      tokens.tail r

/-- A chain goes on as what it settles to. -/
def Chain.settles (between : Engine σ → Engine σ → Prop) (yields : Config σ → Reading σ → Prop)
    (c : Chain) : Reader σ := fun m tokens r =>
  match Chain.settle (strengthAhead tokens) c.operands c.operators with
  | .ok c => c.goesOn between yields m tokens r
  | .error f => r = .failure f m

/-- Two chains that settle alike take the same step. -/
theorem readChain_congr {c' : Chain} (pending : List Pending)
    (h : Chain.settle (strengthAhead tokens) c.operands c.operators
      = Chain.settle (strengthAhead tokens) c'.operands c'.operators) :
    readChain m c tokens pending = readChain m c' tokens pending := by
  unfold strengthAhead at h
  unfold readChain
  cases ha : operatorAhead? tokens with
  | none =>
    simp only [ha] at h
    simp only [h]
  | some op =>
    simp only [ha] at h
    simp only [h]

theorem yieldsBy_chain_congr {d : Chain}
    (h : (⟨m, .chain c, tokens, []⟩ : Config σ).YieldsBy between n r)
    (hs : Chain.settle (strengthAhead tokens) c.operands c.operators
      = Chain.settle (strengthAhead tokens) d.operands d.operators) :
    (⟨m, .chain d, tokens, []⟩ : Config σ).YieldsBy between n r := by
  obtain ⟨k, rfl, h'⟩ := h.of_go rfl
  rw [readChain_congr [] hs] at h'
  exact .go rfl h'

/-- The right operand of `op` is there, or has failed. -/
theorem YieldsBy.of_rightOperand {op : Operator} {token : Value} {rest : List Value}
    (h : (⟨m, .operand, token :: rest, [.rightOperand c op token]⟩ : Config σ).YieldsBy between n r) :
    ((operandReader between).outputTo op).feeds (Config.YieldsBy between n) c.operands c.operators m
      (token :: rest) r := by
  have h' : ((⟨m, .operand, token :: rest, []⟩ : Config σ).under
    [.rightOperand c op token]).YieldsBy between n r := h
  obtain ⟨v, rest', m', h₁, h₂⟩ | ⟨f, m', h₁, rfl⟩ := h'.split
  · obtain ⟨k, rfl, h₃⟩ := h₂.of_go rfl
    cases v with
    | none =>
      obtain rfl := h₃.of_raise
      exact .inl ⟨_, m', .inr ⟨none, rest', m', ⟨_, h₁⟩, rfl⟩, rfl⟩
    | some b =>
      exact .inr ⟨some b, rest', m', .inr ⟨some b, rest', m', ⟨_, h₁⟩, rfl⟩, b, rfl, h₃.mono (by omega)⟩
  · exact .inl ⟨f, m', .inl ⟨f, m', ⟨_, h₁⟩, rfl⟩, rfl⟩

theorem yields_rightOperand {op : Operator} {token : Value} {rest : List Value}
    (h : ((operandReader between).outputTo op).feeds (Config.Yields between) c.operands c.operators m
      (token :: rest) r) :
    (⟨m, .operand, token :: rest, [.rightOperand c op token]⟩ : Config σ).Yields between r := by
  obtain ⟨f, m', (⟨f', m₁, h, he⟩ | ⟨v, rest', m₁, h, hv⟩), rfl⟩ |
    ⟨v, rest', m', (⟨f', m₁, h, he⟩ | ⟨v', rest₁, m₁, h, hv⟩), b, rfl, hy⟩ := h
  · cases he
    exact h.abandoned (.rightOperand c op token)
  · cases v with
    | some v => cases hv
    | none =>
      cases hv
      exact h.join ⟨_, .go rfl (Config.yieldsBy_raise (n := 0) _ _ _)⟩
  · cases he
  · cases v' with
    | none => cases hv
    | some v' =>
      cases hv
      obtain ⟨k, hy⟩ := hy
      exact h.join ⟨_, .go rfl hy⟩

theorem YieldsBy.of_chain (h : (⟨m, .chain c, tokens, []⟩ : Config σ).YieldsBy between n r) :
    ∃ k, n = k + 1 ∧ c.settles between (Config.YieldsBy between k) m tokens r := by
  obtain ⟨k, hk, h⟩ := h.of_go rfl
  refine ⟨k, hk, ?_⟩
  unfold Chain.settles Chain.goesOn strengthAhead
  unfold readChain at h
  cases ha : operatorAhead? tokens with
  | none =>
    simp only [ha] at h ⊢
    cases hs : Chain.settle 0 c.operands c.operators with
    | ok c' =>
      simp only [hs] at h
      exact h.of_reply
    | error f =>
      simp only [hs] at h
      exact h.of_raise
  | some op =>
    simp only [ha] at h ⊢
    cases hs : Chain.settle op.precedence c.operands c.operators with
    | error f =>
      simp only [hs] at h
      exact h.of_raise
    | ok c' =>
      simp only [hs] at h ⊢
      cases ht : tokens.tail with
      | nil =>
        simp only [ht] at h
        exact h.of_raise
      | cons token rest =>
        simp only [ht] at h
        split at h
        · rw [if_pos (by assumption)]
          exact h.of_raise
        · rw [if_neg (by assumption)]
          exact YieldsBy.of_rightOperand h

theorem yields_chain (h : c.settles between (Config.Yields between) m tokens r) :
    (⟨m, .chain c, tokens, []⟩ : Config σ).Yields between r := by
  suffices hr : (readChain m c tokens []).Yields between r by
    obtain ⟨k, hk⟩ := hr
    exact ⟨k + 1, .go rfl hk⟩
  unfold Chain.settles Chain.goesOn strengthAhead at h
  unfold readChain
  cases ha : operatorAhead? tokens with
  | none =>
    simp only [ha] at h ⊢
    cases hs : Chain.settle 0 c.operands c.operators with
    | ok c' =>
      simp only [hs] at h ⊢
      subst h
      exact ⟨0, Config.yieldsBy_reply _ _ _⟩
    | error f =>
      simp only [hs] at h ⊢
      subst h
      exact ⟨0, Config.yieldsBy_raise _ _ _⟩
  | some op =>
    simp only [ha] at h ⊢
    cases hs : Chain.settle op.precedence c.operands c.operators with
    | error f =>
      simp only [hs] at h ⊢
      subst h
      exact ⟨0, Config.yieldsBy_raise _ _ _⟩
    | ok c' =>
      simp only [hs] at h ⊢
      cases ht : tokens.tail with
      | nil =>
        simp only [ht] at h ⊢
        rw [if_pos (show atInputEnd [] = true from rfl)] at h
        subst h
        exact ⟨0, Config.yieldsBy_raise _ _ _⟩
      | cons token rest =>
        simp only [ht] at h ⊢
        split at h
        · rw [if_pos (by assumption)]
          subst h
          exact ⟨0, Config.yieldsBy_raise _ _ _⟩
        · rw [if_neg (by assumption)]
          exact yields_rightOperand (c := ⟨c'.operands, op :: c'.operators⟩) h

end Steps

/-! ### One level at a time -/

section Levels

variable {between : Engine σ → Engine σ → Prop} {strength : Nat} {ops : List Operator}

theorem operatorIn?_eq_some (hops : ∀ op, op ∈ ops ↔ op.precedence = strength) {tokens : List Value}
    {op : Operator} : Grammar.operatorIn? ops tokens = some op ↔
      operatorAhead? tokens = some op ∧ op.precedence = strength := by
  simp only [Grammar.operatorIn?, Option.filter_eq_some_iff, decide_eq_true_eq, hops]

theorem strengthAhead_ne (hops : ∀ op, op ∈ ops ↔ op.precedence = strength) (hs : 0 < strength)
    {tokens : List Value} (h : Grammar.operatorIn? ops tokens = none) :
    strengthAhead tokens ≠ strength := by
  intro he
  cases ha : operatorAhead? tokens with
  | none =>
    simp only [strengthAhead, ha] at he
    omega
  | some op =>
    rw [strengthAhead_of_some ha] at he
    rw [(operatorIn?_eq_some hops).2 ⟨ha, he⟩] at h
    cases h

/-- `right` reads what stands to the right of `op`, with all that binds at least
as strongly as `strength`: a chain that goes on from its first operand goes on
from its value. -/
structure RightOf (between : Engine σ → Engine σ → Prop) (strength : Nat) (op : Operator)
    (right : Reader σ) : Prop where
  forward : ∀ {n : Nat} {operands : List Value} {operators : List Operator} {m : Machine σ}
    {tokens : List Value} {r : Reading σ}, (∀ o ∈ op :: operators, o.precedence < strength) →
    ((operandReader between).outputTo op).feeds (Config.YieldsBy between n) operands (op :: operators)
      m tokens r →
    right.feeds (Config.YieldsBy between n) operands (op :: operators) m tokens r
  backward : ∀ {operands : List Value} {operators : List Operator} {m : Machine σ}
    {tokens : List Value} {r : Reading σ}, (∀ o ∈ op :: operators, o.precedence < strength) →
    right.feeds (Config.Yields between) operands (op :: operators) m tokens r →
    ((operandReader between).outputTo op).feeds (Config.Yields between) operands (op :: operators)
      m tokens r
  ahead : ∀ {m m' : Machine σ} {tokens rest : List Value} {v : Option Value},
    right m tokens (.value v rest m') → strengthAhead rest < strength
  outputs : ∀ {m m' : Machine σ} {tokens rest : List Value} {v : Option Value},
    right m tokens (.value v rest m') → ∃ b, v = some b

theorem RightOf.operand (op : Operator) :
    RightOf between 4 op ((operandReader between).outputTo op) where
  forward := fun _ h => h
  backward := fun _ h => h
  ahead := fun {_ _ _ rest _} _ => Nat.lt_succ_of_le (strengthAhead_le rest)
  outputs := by
    rintro m m' tokens rest v (⟨f, m₁, h, he⟩ | ⟨v₁, rest₁, m₁, h, hv⟩)
    · cases he
    · cases v₁ with
      | none => cases hv
      | some b =>
        cases hv
        exact ⟨b, rfl⟩

variable (hops : ∀ op, op ∈ ops ↔ op.precedence = strength) {right : Operator → Reader σ}
variable (hright : ∀ op, op.precedence = strength → RightOf between (strength + 1) op (right op))
include hops hright

/-- After a level no operator of its strength stands ahead. -/
theorem Grammar.Folds.ahead (hs : 0 < strength) {m m' : Machine σ} {tokens rest : List Value}
    {left v : Option Value} (h : Grammar.Folds ops right left m tokens (.value v rest m'))
    (ha : strengthAhead tokens ≤ strength) : strengthAhead rest < strength := by
  generalize hr : Reading.value v rest m' = r at h
  induction h with
  | done ho =>
    cases hr
    have := strengthAhead_ne hops hs ho
    omega
  | apply ho _ hb _ _ ih =>
    have := (hright _ ((operatorIn?_eq_some hops).1 ho).2).ahead hb
    exact ih (by omega) hr
  | _ => cases hr

omit hops hright in
theorem Grammar.Folds.outputs {m m' : Machine σ} {tokens rest : List Value} {left v : Option Value}
    (h : Grammar.Folds ops right left m tokens (.value v rest m')) (hl : ∃ a, left = some a) :
    ∃ b, v = some b := by
  generalize hr : Reading.value v rest m' = r at h
  induction h with
  | done ho =>
    cases hr
    exact hl
  | apply _ _ _ _ _ ih => exact ih ⟨_, rfl⟩ hr
  | _ => cases hr

/-- A chain in which only weaker operators wait goes on from its last operand as
it does once a whole level has been folded into that operand. -/
theorem Grammar.Folds.forward {n : Nat} {v : Value} {operands : List Value}
    {operators : List Operator} {m : Machine σ} {tokens : List Value} {r : Reading σ}
    (hb : ∀ o ∈ operators, o.precedence < strength) (ha : strengthAhead tokens ≤ strength)
    (h : (⟨m, .chain ⟨v :: operands, operators⟩, tokens, []⟩ : Config σ).YieldsBy between n r) :
    Reader.feeds (Grammar.Folds ops right (some v)) (Config.YieldsBy between n) operands operators
      m tokens r := by
  -- each operator of the level costs at least one step
  induction n using Nat.strongRecOn generalizing v m tokens with
  | ind n ih =>
    cases ho : Grammar.operatorIn? ops tokens with
    | none => exact .inr ⟨some v, tokens, m, .done ho, v, rfl, h⟩
    | some op =>
      obtain ⟨hop, hp⟩ := (operatorIn?_eq_some hops).1 ho
      obtain ⟨k, rfl, hk⟩ := YieldsBy.of_chain h
      simp only [Chain.settles, Chain.goesOn, strengthAhead_of_some hop, hop] at hk
      rw [Chain.settle_of_lt _ (by rwa [hp])] at hk
      simp only at hk
      split at hk
      · subst hk
        exact .inl ⟨_, m, .noRight ho (by assumption), rfl⟩
      · have hend : atInputEnd tokens.tail = false := eq_false_of_ne_true (by assumption)
        have hb' : ∀ o ∈ op :: operators, o.precedence < strength + 1 := by
          intro o ho
          rcases List.mem_cons.1 ho with rfl | ho
          · omega
          · have := hb o ho
            omega
        obtain ⟨f, m', hf, rfl⟩ | ⟨_, rest, m', hv, b, rfl, hy⟩ := (hright op hp).forward hb' hk
        · exact .inl ⟨f, m', .rightFails ho hend hf, rfl⟩
        · have hrest := (hright op hp).ahead hv
          have hs := Chain.settle_cons (show strengthAhead rest ≤ op.precedence by omega) v b
            operands operators
          cases happ : op.apply v b with
          | error f =>
            obtain ⟨j, -, hj⟩ := YieldsBy.of_chain hy
            simp only [Chain.settles, hs, happ] at hj
            exact .inl ⟨f, m', .applyFails ho hend hv happ, hj⟩
          | ok w =>
            simp only [happ] at hs
            have hw := yieldsBy_chain_congr (d := ⟨w :: operands, operators⟩) hy hs
            obtain ⟨f, m₂, hf, rfl⟩ | ⟨v₂, rest₂, m₂, hv₂, b₂, rfl, hy₂⟩ :=
              ih k (by omega) (by omega) hw
            · exact .inl ⟨f, m₂, .apply ho hend hv happ hf, rfl⟩
            · exact .inr ⟨_, rest₂, m₂, .apply ho hend hv happ hv₂, b₂, rfl, hy₂.mono (by omega)⟩

/-- The operator ahead takes its place on the stack. -/
theorem yields_chain_operator {v : Value} {operands : List Value} {operators : List Operator}
    {m : Machine σ} {tokens : List Value} {r : Reading σ} {op : Operator}
    (hb : ∀ o ∈ operators, o.precedence < strength) (ho : Grammar.operatorIn? ops tokens = some op)
    (hend : atInputEnd tokens.tail = false)
    (h : (right op).feeds (Config.Yields between) (v :: operands) (op :: operators) m tokens.tail r) :
    (⟨m, .chain ⟨v :: operands, operators⟩, tokens, []⟩ : Config σ).Yields between r := by
  obtain ⟨hop, hp⟩ := (operatorIn?_eq_some hops).1 ho
  have hb' : ∀ o ∈ op :: operators, o.precedence < strength + 1 := by
    intro o ho
    rcases List.mem_cons.1 ho with rfl | ho
    · omega
    · have := hb o ho
      omega
  apply yields_chain
  simp only [Chain.settles, Chain.goesOn, strengthAhead_of_some hop, hop]
  rw [Chain.settle_of_lt _ (by rwa [hp])]
  simp only [hend]
  exact (hright op hp).backward hb' h

theorem Grammar.Folds.backward {v : Value} {operands : List Value} {operators : List Operator}
    {m : Machine σ} {tokens : List Value} {r : Reading σ}
    (hb : ∀ o ∈ operators, o.precedence < strength)
    (h : Reader.feeds (Grammar.Folds ops right (some v)) (Config.Yields between) operands operators
      m tokens r) :
    (⟨m, .chain ⟨v :: operands, operators⟩, tokens, []⟩ : Config σ).Yields between r := by
  -- a fold that ends in `r₁` goes on to `r`
  suffices hfold : ∀ left r₁, Grammar.Folds ops right left m tokens r₁ → left = some v →
      ((∃ f m', r₁ = .failure f m' ∧ r = .failure f m') ∨ ∃ b rest m', r₁ = .value (some b) rest m' ∧
        (⟨m', .chain ⟨b :: operands, operators⟩, rest, []⟩ : Config σ).Yields between r) →
      (⟨m, .chain ⟨v :: operands, operators⟩, tokens, []⟩ : Config σ).Yields between r by
    obtain ⟨f, m', hf, rfl⟩ | ⟨_, rest, m', hv, b, rfl, hy⟩ := h
    · exact hfold _ _ hf rfl (.inl ⟨f, m', rfl, rfl⟩)
    · exact hfold _ _ hv rfl (.inr ⟨b, rest, m', rfl, hy⟩)
  clear h
  intro left r₁ h
  induction h generalizing v with
  | done ho =>
    rintro rfl (⟨f, m', he, -⟩ | ⟨b, rest, m', he, hy⟩)
    · cases he
    · cases he
      exact hy
  | noLeft ho => exact fun he => by cases he
  | @noRight a m tokens op ho hend =>
    rintro he (⟨f, m', he', rfl⟩ | ⟨b, rest, m', he', hy⟩)
    · cases he
      cases he'
      obtain ⟨hop, hp⟩ := (operatorIn?_eq_some hops).1 ho
      apply yields_chain
      simp only [Chain.settles, Chain.goesOn, strengthAhead_of_some hop, hop]
      rw [Chain.settle_of_lt _ (by rwa [hp])]
      simp only [hend, if_true]
    · cases he'
  | rightFails ho hend hf =>
    rintro he (⟨f, m', he', rfl⟩ | ⟨b, rest, m', he', hy⟩)
    · cases he
      cases he'
      exact yields_chain_operator hops hright hb ho hend (.inl ⟨_, _, hf, rfl⟩)
    · cases he'
  | @applyFails a b m m₁ tokens rest₁ op f₁ ho hend hv happ =>
    rintro he (⟨f, m', he', rfl⟩ | ⟨b, rest, m', he', hy⟩)
    · cases he
      cases he'
      refine yields_chain_operator hops hright hb ho hend (.inr ⟨_, _, _, hv, b, rfl, ?_⟩)
      obtain ⟨hop, hp⟩ := (operatorIn?_eq_some hops).1 ho
      have hrest := (hright op hp).ahead hv
      apply yields_chain
      simp only [Chain.settles, Chain.settle_cons (show strengthAhead rest₁ ≤ op.precedence by omega),
        happ]
    · cases he'
  | @apply a b w m m₁ tokens rest₁ op r₁ ho hend hv happ hf ih =>
    intro he hr
    cases he
    refine yields_chain_operator hops hright hb ho hend (.inr ⟨_, _, _, hv, b, rfl, ?_⟩)
    obtain ⟨hop, hp⟩ := (operatorIn?_eq_some hops).1 ho
    have hrest := (hright op hp).ahead hv
    obtain ⟨k, hk⟩ := ih rfl hr
    refine ⟨k, yieldsBy_chain_congr hk ?_⟩
    simp only [Chain.settle_cons (show strengthAhead rest₁ ≤ op.precedence by omega), happ]

/-- A level more: what is read to the right of `op` may go on with stronger operators. -/
theorem RightOf.fold {op : Operator} {first : Reader σ} (hs : 0 < strength)
    (h : RightOf between (strength + 1) op first) :
    RightOf between strength op (first.followedBy (Grammar.Folds ops right)) where
  forward := by
    intro n operands operators m tokens r hb hf
    have hb' : ∀ o ∈ op :: operators, o.precedence < strength + 1 :=
      fun o ho => Nat.lt_succ_of_lt (hb o ho)
    unfold Reader.feeds
    rw [Reader.followedBy_assoc]
    obtain hf | ⟨_, rest, m', hv, b, rfl, hy⟩ := h.forward hb' hf
    · exact .inl hf
    · have ha := h.ahead hv
      exact .inr ⟨_, rest, m', hv, Grammar.Folds.forward hops hright hb (by omega) hy⟩
  backward := by
    intro operands operators m tokens r hb hf
    have hb' : ∀ o ∈ op :: operators, o.precedence < strength + 1 :=
      fun o ho => Nat.lt_succ_of_lt (hb o ho)
    apply h.backward hb'
    unfold Reader.feeds at hf
    rw [Reader.followedBy_assoc] at hf
    obtain hf | ⟨v, rest, m', hv, hf⟩ := hf
    · exact .inl hf
    · obtain ⟨b, rfl⟩ := h.outputs hv
      exact .inr ⟨_, rest, m', hv, b, rfl, Grammar.Folds.backward hops hright hb hf⟩
  ahead := by
    intro m m' tokens rest v hv
    obtain ⟨f, m₁, hf, he⟩ | ⟨v₁, rest₁, m₁, hv₁, hf⟩ := hv
    · cases he
    · have ha := h.ahead hv₁
      exact hf.ahead hops hright hs (by omega)
  outputs := by
    intro m m' tokens rest v hv
    obtain ⟨f, m₁, hf, he⟩ | ⟨v₁, rest₁, m₁, hv₁, hf⟩ := hv
    · cases he
    · exact hf.outputs (h.outputs hv₁)

end Levels

/-! ### The whole expression -/

section Expression

variable {between : Engine σ → Engine σ → Prop}

theorem rightOf_term (op : Operator) :
    RightOf between 3 op (Grammar.term (operandReader between) ((operandReader between).outputTo op)) :=
  RightOf.fold Grammar.mem_products (fun op _ => .operand op) (by omega) (.operand op)

theorem rightOf_additive (op : Operator) :
    RightOf between 2 op
      (Grammar.additive (operandReader between) ((operandReader between).outputTo op)) :=
  RightOf.fold Grammar.mem_sums (fun op _ => rightOf_term op) (by omega) (rightOf_term op)

/-- The three levels in turn, from a first operand on. -/
def Grammar.levels (operand : Reader σ) (first : Option Value) : Reader σ :=
  Reader.followedBy (Grammar.Folds Grammar.products (fun op => operand.outputTo op) first) fun v =>
    Reader.followedBy
      (Grammar.Folds Grammar.sums (fun op => Grammar.term operand (operand.outputTo op)) v)
      (Grammar.Folds Grammar.comparisons fun op => Grammar.additive operand (operand.outputTo op))

theorem Grammar.comparison_eq (operand first : Reader σ) :
    Grammar.comparison operand first = first.followedBy (Grammar.levels operand) := by
  show Reader.followedBy (Reader.followedBy (Reader.followedBy first _) _) _ = _
  rw [Reader.followedBy_assoc first, Reader.followedBy_assoc first]
  congr 1
  funext v
  exact Reader.followedBy_assoc _ _ _

theorem Reader.followedBy_congr {first : Reader σ} {next next' : Option Value → Reader σ}
    {m : Machine σ} {tokens : List Value} {r : Reading σ}
    (h : ∀ v rest m', first m tokens (.value v rest m') → (next v m' rest r ↔ next' v m' rest r)) :
    first.followedBy next m tokens r ↔ first.followedBy next' m tokens r := by
  constructor
  · rintro (hf | ⟨v, rest, m', hv, hn⟩)
    · exact .inl hf
    · exact .inr ⟨v, rest, m', hv, (h v rest m' hv).1 hn⟩
  · rintro (hf | ⟨v, rest, m', hv, hn⟩)
    · exact .inl hf
    · exact .inr ⟨v, rest, m', hv, (h v rest m' hv).2 hn⟩

/-- A chain of one operand goes on as one level folded into it, and then as what
the value of that goes on to. -/
theorem yields_operand_iff {strength : Nat} {ops : List Operator} {right : Operator → Reader σ}
    (hops : ∀ op, op ∈ ops ↔ op.precedence = strength)
    (hright : ∀ op, op.precedence = strength → RightOf between (strength + 1) op (right op))
    (hs : 0 < strength) {next : Option Value → Reader σ} {v : Value} {m : Machine σ}
    {tokens : List Value} {r : Reading σ} (ha : strengthAhead tokens ≤ strength)
    (hnext : ∀ b rest m', strengthAhead rest < strength →
      ((⟨m', .chain ⟨[b], []⟩, rest, []⟩ : Config σ).Yields between r ↔ next (some b) m' rest r)) :
    (⟨m, .chain ⟨[v], []⟩, tokens, []⟩ : Config σ).Yields between r ↔
      Reader.followedBy (Grammar.Folds ops right (some v)) next m tokens r := by
  have hb : ∀ o ∈ ([] : List Operator), o.precedence < strength := fun o ho => by cases ho
  have hfeeds : (⟨m, .chain ⟨[v], []⟩, tokens, []⟩ : Config σ).Yields between r ↔
      Reader.feeds (Grammar.Folds ops right (some v)) (Config.Yields between) [] [] m tokens r := by
    constructor
    · rintro ⟨n, h⟩
      exact Reader.feeds_imp (Grammar.Folds.forward hops hright hb ha h) fun _ _ h => ⟨n, h⟩
    · exact Grammar.Folds.backward hops hright hb
  rw [hfeeds]
  apply Reader.followedBy_congr
  intro w rest m' hw
  obtain ⟨b, rfl⟩ := hw.outputs ⟨v, rfl⟩
  rw [← hnext b rest m' (hw.ahead hops hright hs ha)]
  constructor
  · rintro ⟨b', hb', hy⟩
    cases hb'
    exact hy
  · exact fun hy => ⟨b, rfl, hy⟩

/-- A chain of one operand with no operator ahead is that operand. -/
theorem yields_single_iff {v : Value} {m : Machine σ} {tokens : List Value} {r : Reading σ}
    (ha : operatorAhead? tokens = none) :
    (⟨m, .chain ⟨[v], []⟩, tokens, []⟩ : Config σ).Yields between r ↔ r = .value (some v) tokens m := by
  constructor
  · rintro ⟨n, h⟩
    obtain ⟨k, -, hk⟩ := YieldsBy.of_chain h
    simpa [Chain.settles, Chain.goesOn, Chain.settle, ha] using hk
  · rintro rfl
    apply yields_chain
    simp [Chain.settles, Chain.goesOn, Chain.settle, ha]

theorem Reader.followedBy_value (first : Reader σ) :
    first.followedBy (fun v m' rest r => r = .value v rest m') = first := by
  funext m tokens r
  apply propext
  constructor
  · rintro (⟨f, m', h, rfl⟩ | ⟨v, rest, m', h, rfl⟩)
    · exact h
    · exact h
  · intro h
    cases r with
    | value v rest m' => exact .inr ⟨v, rest, m', h, rfl⟩
    | failure f m' => exact .inl ⟨f, m', h, rfl⟩

/-- Without a first operand an operator of the level fails at once. -/
theorem folds_none_iff {ops : List Operator} {right : Operator → Reader σ}
    {next : Option Value → Reader σ} {m : Machine σ} {tokens : List Value} {r : Reading σ} :
    Reader.followedBy (Grammar.Folds ops right none) next m tokens r ↔
      match Grammar.operatorIn? ops tokens with
      | none => next none m tokens r
      | some op => r = .failure (.notEnoughInputs op.symbol) m := by
  constructor
  · rintro (⟨f, m', h, rfl⟩ | ⟨v, rest, m', h, hn⟩)
    · cases h with
      | noLeft ho => rw [ho]
    · cases h with
      | done ho => rwa [ho]
  · intro h
    cases ho : Grammar.operatorIn? ops tokens with
    | none =>
      simp only [ho] at h
      exact .inr ⟨none, tokens, m, .done ho, h⟩
    | some op =>
      simp only [ho] at h
      exact .inl ⟨_, m, .noLeft ho, h⟩

theorem Grammar.levels_none_iff {operand : Reader σ} {m : Machine σ} {tokens : List Value}
    {r : Reading σ} : Grammar.levels operand none m tokens r ↔
      match operatorAhead? tokens with
      | none => r = .value none tokens m
      | some op => r = .failure (.notEnoughInputs op.symbol) m := by
  unfold Grammar.levels
  rw [folds_none_iff]
  simp only [folds_none_iff]
  rw [← Reader.followedBy_value (Grammar.Folds Grammar.comparisons _ none), folds_none_iff]
  cases ha : operatorAhead? tokens with
  | none => simp only [Grammar.operatorIn?, ha, Option.filter_none]
  | some op =>
    simp only [Grammar.operatorIn?, ha, Option.filter_some, decide_eq_true_eq]
    cases op <;> exact Iff.rfl

theorem yields_levels_iff {v : Value} {m : Machine σ} {tokens : List Value} {r : Reading σ} :
    (⟨m, .chain ⟨[v], []⟩, tokens, []⟩ : Config σ).Yields between r ↔
      Grammar.levels (operandReader between) (some v) m tokens r := by
  apply yields_operand_iff Grammar.mem_products (fun op _ => .operand op) (by omega)
    (strengthAhead_le tokens)
  intro b rest m' ha
  apply yields_operand_iff Grammar.mem_sums (fun op _ => rightOf_term op) (by omega) (by omega)
  intro b rest m' ha
  rw [← Reader.followedBy_value (Grammar.Folds Grammar.comparisons _ (some b))]
  apply yields_operand_iff Grammar.mem_comparisons (fun op _ => rightOf_additive op) (by omega)
    (by omega)
  intro b rest m' ha
  exact yields_single_iff (operatorAhead?_of_strengthAhead (by omega))

/-- What the first operand of an expression leads to. -/
theorem yields_firstOperand_iff {v : Option Value} {m : Machine σ} {tokens : List Value}
    {r : Reading σ} :
    (⟨m, .reply v, tokens, [.firstOperand]⟩ : Config σ).Yields between r ↔
      Grammar.levels (operandReader between) v m tokens r := by
  rw [Config.yields_go_iff (b := resume m v tokens .firstOperand []) rfl]
  cases v with
  | none =>
    rw [Grammar.levels_none_iff]
    cases ha : operatorAhead? tokens with
    | none =>
      simp only [resume, ha]
      exact Config.yields_reply_iff
    | some op =>
      simp only [resume, ha]
      exact Config.yields_raise_iff
  | some v =>
    rw [← yields_levels_iff]
    cases ha : operatorAhead? tokens with
    | none =>
      rw [yields_single_iff ha]
      simp only [resume, ha]
      exact Config.yields_reply_iff
    | some op => simp only [resume, ha]

theorem yields_expression_iff {m : Machine σ} {tokens : List Value} {r : Reading σ} :
    expressionReader between m tokens r ↔
      Grammar.comparison (operandReader between) (operandReader between) m tokens r := by
  have hgo : expressionReader between m tokens r ↔
      ((⟨m, .operand, tokens, []⟩ : Config σ).under [.firstOperand]).Yields between r :=
    Config.yields_go_iff rfl
  rw [hgo, Grammar.comparison_eq]
  constructor
  · rintro ⟨n, h⟩
    obtain ⟨v, rest, m', h₁, h₂⟩ | ⟨f, m', h₁, rfl⟩ := h.split
    · exact .inr ⟨v, rest, m', ⟨n, h₁⟩, yields_firstOperand_iff.1 ⟨n, h₂⟩⟩
    · exact .inl ⟨f, m', ⟨n, h₁⟩, rfl⟩
  · rintro (⟨f, m', h, rfl⟩ | ⟨v, rest, m', h, h'⟩)
    · exact h.abandoned .firstOperand
    · exact h.join (yields_firstOperand_iff.2 h')

end Expression

/-! ### No operand is ever missing -/

namespace Chain

/-- There is an operand for each side of each operator. -/
def Full (c : Chain) : Prop := c.operands.length = c.operators.length + 1

theorem Full.settle {c c' : Chain} (h : c.Full) {strength : Nat}
    (hs : settle strength c.operands c.operators = .ok c') : c'.Full := by
  obtain ⟨operands, operators⟩ := c
  simp only [Full] at h hs
  induction operators generalizing operands with
  | nil =>
    cases hs
    exact h
  | cons op operators ih =>
    unfold Chain.settle at hs
    split at hs
    · split at hs
      · rename_i b a rest
        split at hs
        · exact ih _ (by simpa using h) hs
        · cases hs
      · cases hs
    · cases hs
      exact h

/-- The operators ask their operands for numbers; none finds an operand missing. -/
theorem Full.settle_failsWith {c : Chain} (h : c.Full) (strength : Nat) :
    FailsWith (· = .type) (Chain.settle strength c.operands c.operators) := by
  obtain ⟨operands, operators⟩ := c
  simp only [Full] at h ⊢
  induction operators generalizing operands with
  | nil => exact .ok _
  | cons op operators ih =>
    unfold Chain.settle
    split
    · split
      · rename_i b a rest
        split
        · exact ih _ (by simpa using h)
        · rename_i f hf
          exact .error (op.apply_failsWith (P := (· = .type)) rfl a b f hf)
      · rename_i hlen
        match operands, h, hlen with
        | b :: a :: rest, _, hlen => exact absurd rfl (hlen b a rest)
        | [b], h, _ => simp at h
        | [], h, _ => simp at h
    · exact .ok _

theorem settle_zero_operators {operands : List Value} {operators : List Operator} {c : Chain}
    (hs : settle 0 operands operators = .ok c) : c.operators = [] := by
  induction operators generalizing operands with
  | nil =>
    cases hs
    rfl
  | cons op operators ih =>
    unfold settle at hs
    rw [if_pos (Nat.zero_le _)] at hs
    split at hs
    · split at hs
      · exact ih hs
      · cases hs
    · cases hs

/-- At the end of a chain all operators are combined, and one value is left. -/
theorem Full.settle_zero {c c' : Chain} (h : c.Full)
    (hs : Chain.settle 0 c.operands c.operators = .ok c') : ∃ v, c' = ⟨[v], []⟩ := by
  have hfull : c'.Full := h.settle hs
  have hops := settle_zero_operators hs
  obtain ⟨operands, operators⟩ := c'
  simp only [Full] at hops hfull
  subst hops
  obtain ⟨v, rfl⟩ := List.length_eq_one_iff.1 hfull
  exact ⟨v, rfl⟩

end Chain

/-- A chain about to be looked at is full. -/
def Focus.Filled : Focus → Prop
  | .chain c => c.Full
  | _ => True

/-- A chain that waits for a right operand is full once it is there. -/
def Pending.Filled : Pending → Prop
  | .rightOperand c _ _ => ∀ v, Chain.Full ⟨v :: c.operands, c.operators⟩
  | _ => True

theorem upheld_filled (hosts : Array (HostFunction σ)) : Upheld hosts Focus.Filled Pending.Filled where
  focus := by
    intro focus hf
    cases focus
    case chain c => exact hf.elim
    all_goals trivial
  frame := by
    intro p hp
    cases p
    case rightOperand c op producer => exact hp.elim
    all_goals trivial
  fault := fun _ => trivial
  firstOperand := fun v => rfl
  nextOperand := fun v h => h v
  nextOperator := by
    intro c c' strength op producer hc hs v
    have hc' : c'.Full := Chain.Full.settle hc hs
    exact congrArg (· + 1) hc'
  unsettled := fun _ _ => trivial

theorem step_filled {c c' : Config σ} (hc : c.Meets Focus.Filled Pending.Filled)
    (hs : (step c).config? = some c') : c'.Meets Focus.Filled Pending.Filled := by
  obtain h | ⟨-, hf, hp⟩ := step_upheld (upheld_filled _) rfl hc hs
  · exact h
  · refine ⟨?_, hp⟩
    rw [hf]
    trivial

theorem Path.filled {between : Engine σ → Engine σ → Prop} {n : Nat} {m : Machine σ}
    {tokens : List Value} {c : Config σ} (h : Path between n ⟨m, .expression, tokens, []⟩ c) :
    c.Meets Focus.Filled Pending.Filled := by
  refine h.invariant ?_ ?_ ⟨trivial, fun p hp => by cases hp⟩
  · intro a b ha hs
    exact step_filled ha (by rw [hs]; rfl)
  · intro a b why e ha hs _
    have hb : b.Meets Focus.Filled Pending.Filled := step_filled ha (by rw [hs]; rfl)
    exact hb

/-- **Infix evaluation is standard precedence.** What an expression yields, with what
its operands do on the way, is what the grammar says. On the way there no operator lacks an
operand, and at the end of the chain there is exactly one value. -/
theorem expression_by_precedence (between : Engine σ → Engine σ → Prop) (m : Machine σ)
    (tokens : List Value) :
    (∀ r, expressionReader between m tokens r ↔
      Grammar.comparison (operandReader between) (operandReader between) m tokens r) ∧
    ∀ n c chain, Path between n ⟨m, .expression, tokens, []⟩ c → c.focus = .chain chain →
      (∀ strength name,
        Chain.settle strength chain.operands chain.operators ≠ .error (.notEnoughInputs name)) ∧
      ∀ chain', Chain.settle 0 chain.operands chain.operators = .ok chain' →
        ∃ v, chain' = ⟨[v], []⟩ := by
  refine ⟨fun r => yields_expression_iff, ?_⟩
  intro n c chain h hf
  have hfull : chain.Full := by
    have hc := h.filled.1
    rwa [hf] at hc
  refine ⟨?_, fun chain' hs => hfull.settle_zero hs⟩
  intro strength name hs
  have hk := hfull.settle_failsWith strength _ hs
  cases hk

/-- `1 + 2 * 3` on a bare engine: the product is combined first, and when its operator
is looked at nothing is missing. -/
theorem expression_by_precedence_sum :
    let m : Machine Unit := ⟨Engine.new () .silent 1 false, {}⟩
    let tokens := [Value.number 1.0, .text "+", .number 2.0, .text "*", .number 3.0]
    let chain : Chain := ⟨[.number 2.0, .number 1.0], [.add]⟩
    Grammar.comparison (operandReader Eq) (operandReader Eq) m tokens
      (.value (some (.number (1.0 + 2.0 * 3.0))) [] m) ∧
    Path Eq 8 ⟨m, .expression, tokens, []⟩ ⟨m, .chain chain, tokens.drop 3, []⟩ ∧
    ∀ strength name,
      Chain.settle strength chain.operands chain.operators ≠ .error (.notEnoughInputs name) := by
  intro m tokens chain
  have h := expression_by_precedence Eq m tokens
  have half : Path Eq 8 ⟨m, .expression, tokens, []⟩ ⟨m, .chain chain, tokens.drop 3, []⟩ :=
    .go rfl (.go rfl (.go rfl (.go rfl (.go rfl (.go rfl (.go rfl (.go rfl (.refl _))))))))
  have rest : Path Eq 5 ⟨m, .chain chain, tokens.drop 3, []⟩
      ⟨m, .reply (some (.number (1.0 + 2.0 * 3.0))), [], []⟩ :=
    .go rfl (.go rfl (.go rfl (.go rfl (.go rfl (.refl _)))))
  have whole : expressionReader Eq m tokens (.value (some (.number (1.0 + 2.0 * 3.0))) [] m) :=
    ⟨13, 13, _, Nat.le_refl _, half.trans rest, rfl, rfl⟩
  exact ⟨(h.1 _).1 whole, half, (h.2 _ _ _ half rfl).1⟩

end Logo
