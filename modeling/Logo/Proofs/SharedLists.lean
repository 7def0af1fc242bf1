import Logo.Proofs.Equality
import Logo.Value.Builder

/-!
# Lists that share their nodes

A list can be kept as a chain of nodes, where a longer list is a node in front of a shorter one and
has the rest of its nodes in common with it. Two such lists are compared node by node, but where
both have come to the same node the rest is the same and need not be looked at. This shortcut
changes nothing (`Nodes.equal_eq`), unless both hold "not a number", which the shortcut would
find equal to itself. So lists are equal by their members alone, however they were made
(`equality_structural`).
-/

namespace Logo
set_option autoImplicit false

mutual

/-- A value as it is kept in memory. -/
inductive Stored where
  | number (n : Float)
  | text (s : String)
  | boolean (b : Bool)
  | list (l : Nodes)
  | procedure (p : Procedure)

/-- A list as it is kept in memory. Every node has a number that no other node has. -/
inductive Nodes where
  | empty
  | node (id : Nat) (head : Stored) (tail : Nodes)

end

mutual

/-- The value that is kept. -/
def Stored.value : Stored → Value
  | .number n => .number n
  | .text s => .text s
  | .boolean b => .boolean b
  | .list l => .list l.members
  | .procedure p => .procedure p

def Nodes.members : Nodes → List Value
  | .empty => []
  | .node _ head tail => head.value :: tail.members

end

mutual

/-- Compare two values. -/
def Stored.equal : Stored → Stored → Bool
  | .number a, .number b => a == b
  | .text a, .text b => a == b
  | .boolean a, .boolean b => a == b
  | .list a, .list b => a.equal b
  | .procedure p, .procedure q => p.same q
  | _, _ => false

/-- Compare two lists node by node, up to the end or to a node that both have. -/
def Nodes.equal : Nodes → Nodes → Bool
  | .empty, .empty => true
  | .node i a as, .node j b bs => i == j || (a.equal b && as.equal bs)
  | _, _ => false

end

mutual

/-- The numbers of all nodes, at any depth. -/
def Stored.ids : Stored → List Nat
  | .list l => l.ids
  | _ => []

def Nodes.ids : Nodes → List Nat
  | .empty => []
  | .node id head tail => id :: (head.ids ++ tail.ids)

end

mutual

/-- Every node, at any depth, is the one that has its number. -/
def Stored.LiesIn (nodes : Array (Stored × Nodes)) : Stored → Prop
  | .list l => l.LiesIn nodes
  | _ => True

def Nodes.LiesIn (nodes : Array (Stored × Nodes)) : Nodes → Prop
  | .empty => True
  | .node id head tail => nodes[id]? = some (head, tail) ∧ head.LiesIn nodes ∧ tail.LiesIn nodes

end

/-! ### Comparing -/

/-- Of two things with nodes, given by whether they hold "not a number" and by the numbers of their
nodes: one does not hold it, or they have no node in common. -/
def Apart (p q : Bool) (is js : List Nat) : Prop := p = false ∨ q = false ∨ ∀ i ∈ is, i ∉ js

theorem Apart.mono {p q p' q' : Bool} {is js is' js' : List Nat} (h : Apart p q is js)
    (hp : p = false → p' = false) (hq : q = false → q' = false) (hi : ∀ i ∈ is', i ∈ is)
    (hj : ∀ j ∈ js', j ∈ js) : Apart p' q' is' js' := by
  obtain h | h | h := h
  · exact .inl (hp h)
  · exact .inr (.inl (hq h))
  · exact .inr (.inr fun i hm hn => h i (hi i hm) (hj i hn))

def Nodes.Apart (a b : Nodes) : Prop :=
  Logo.Apart (Value.anyHoldsNaN a.members) (Value.anyHoldsNaN b.members) a.ids b.ids

/-- A list without "not a number" equals itself. -/
theorem equalAll_self {items : List Value} (h : Value.anyHoldsNaN items = false) :
    Value.equalAll items items = true :=
  Value.equal_self (v := .list items) h

mutual

theorem Stored.equal_eq {nodes : Array (Stored × Nodes)} : ∀ {a b : Stored}, a.LiesIn nodes →
    b.LiesIn nodes → Apart a.value.holdsNaN b.value.holdsNaN a.ids b.ids →
    a.equal b = a.value.equal b.value
  | .list as, .list bs, ha, hb, hapart => Nodes.equal_eq (a := as) (b := bs) ha hb hapart
  | .number _, b, _, _, _ => by cases b <;> rfl
  | .text _, b, _, _, _ => by cases b <;> rfl
  | .boolean _, b, _, _, _ => by cases b <;> rfl
  | .procedure _, b, _, _, _ => by cases b <;> rfl
  | .list _, .number _, _, _, _ | .list _, .text _, _, _, _ | .list _, .boolean _, _, _, _
  | .list _, .procedure _, _, _, _ => rfl

theorem Nodes.equal_eq {nodes : Array (Stored × Nodes)} : ∀ {a b : Nodes}, a.LiesIn nodes →
    b.LiesIn nodes → a.Apart b → a.equal b = Value.equalAll a.members b.members
  | .empty, .empty, _, _, _ => rfl
  | .empty, .node _ _ _, _, _, _ | .node _ _ _, .empty, _, _, _ => rfl
  | .node i a as, .node j b bs, ha, hb, hapart => by
    by_cases hij : i = j
    · -- the same node, so the rest is the same list, and holds no "not a number"
      subst hij
      obtain ⟨rfl, rfl⟩ : a = b ∧ as = bs := by simpa using ha.1.symm.trans hb.1
      have hself : Value.equalAll (Nodes.node i a as).members (Nodes.node i a as).members = true := by
        obtain h | h | h := hapart
        · exact equalAll_self h
        · exact equalAll_self h
        · exact absurd List.mem_cons_self (h i List.mem_cons_self)
      rw [hself]
      simp [Nodes.equal]
    · have hhead : a.equal b = a.value.equal b.value := by
        refine Stored.equal_eq ha.2.1 hb.2.1 (hapart.mono ?_ ?_ ?_ ?_)
        · exact fun h => (Bool.or_eq_false_iff.1 h).1
        · exact fun h => (Bool.or_eq_false_iff.1 h).1
        · exact fun k hk => List.mem_cons_of_mem _ (List.mem_append_left _ hk)
        · exact fun k hk => List.mem_cons_of_mem _ (List.mem_append_left _ hk)
      have htail : as.equal bs = Value.equalAll as.members bs.members := by
        refine Nodes.equal_eq ha.2.2 hb.2.2 (hapart.mono ?_ ?_ ?_ ?_)
        · exact fun h => (Bool.or_eq_false_iff.1 h).2
        · exact fun h => (Bool.or_eq_false_iff.1 h).2
        · exact fun k hk => List.mem_cons_of_mem _ (List.mem_append_right _ hk)
        · exact fun k hk => List.mem_cons_of_mem _ (List.mem_append_right _ hk)
      rw [Nodes.equal, beq_false_of_ne hij, Bool.false_or, hhead, htail]
      rfl

end

/-! ### Making lists -/

namespace Nodes

def elements : Nodes → List Stored
  | empty => []
  | node _ head tail => head :: tail.elements

def tail : Nodes → Nodes
  | empty => empty
  | node _ _ tail => tail

end Nodes

/-- What the nodes hold, by their numbers, and the lists that somebody has. -/
structure Memory where
  nodes : Array (Stored × Nodes)
  lists : List Nodes

namespace Memory

/-- A list in memory, and all nodes that there are then. -/
abbrev Made := Nodes × Array (Stored × Nodes)

/-- Put a new node in front of a list. -/
def cons (head : Stored) (l : Made) : Made := (.node l.2.size head l.1, l.2.push (head, l.1))

/-- Put values in front of a list, the last one first. -/
def finishOnto (staged : List Stored) (l : Made) : Made := staged.foldr cons l

/-- A copy of a list with a value behind it. -/
def withLast (nodes : Array (Stored × Nodes)) (l : Nodes) (v : Stored) : Made :=
  finishOnto (l.elements ++ [v]) (.empty, nodes)

/-- A copy of a list without its last member. -/
def withoutLast (nodes : Array (Stored × Nodes)) (l : Nodes) : Made :=
  finishOnto l.elements.dropLast (.empty, nodes)

/-- Somebody has the value: it is no list, a list that somebody has, or a member of one. -/
inductive Has (s : Memory) : Stored → Prop where
  | plain {v : Stored} : v.value.asList? = none → Has s v
  | list {l : Nodes} : l ∈ s.lists → Has s (.list l)
  | member {l : Nodes} {v : Stored} : l ∈ s.lists → v ∈ l.elements → Has s v

/-- The ways to make a list, and which list it is. -/
inductive Makes (s : Memory) : Made → List Value → Prop where
  | empty : Makes s (.empty, s.nodes) []
  | keep {l : Nodes} : s.Has (.list l) → Makes s (l, s.nodes) l.members
  | tail {l : Nodes} : l ∈ s.lists → Makes s (l.tail, s.nodes) l.members.tail
  | cons {v : Stored} {l : Nodes} : s.Has v → l ∈ s.lists →
      Makes s (Memory.cons v (l, s.nodes)) (v.value :: l.members)
  | withLast {v : Stored} {l : Nodes} : s.Has v → l ∈ s.lists →
      Makes s (Memory.withLast s.nodes l v) (l.members ++ [v.value])
  | withoutLast {l : Nodes} : l ∈ s.lists →
      Makes s (Memory.withoutLast s.nodes l) l.members.dropLast
  | finish {staged : List Stored} : (∀ v ∈ staged, s.Has v) →
      Makes s (finishOnto staged (.empty, s.nodes)) (({} : Builder).extend (staged.map Stored.value)).finish
  | finishOnto {staged : List Stored} {l : Nodes} : (∀ v ∈ staged, s.Has v) → l ∈ s.lists →
      Makes s (finishOnto staged (l, s.nodes))
        ((({} : Builder).extend (staged.map Stored.value)).finishOnto l.members)

/-- A memory that lists have been made in. -/
inductive Reachable : Memory → Prop where
  | new : Reachable ⟨#[], []⟩
  | make {s : Memory} {l : Made} {items : List Value} : Reachable s → s.Makes l items →
      Reachable ⟨l.2, l.1 :: s.lists⟩

end Memory

theorem Nodes.map_value_elements : ∀ l : Nodes, l.elements.map Stored.value = l.members
  | .empty => rfl
  | .node _ head tail => congrArg (head.value :: ·) (map_value_elements tail)

theorem Nodes.members_tail (l : Nodes) : l.tail.members = l.members.tail := by
  cases l <;> rfl

/-- Nodes are only added. -/
def Extends (nodes nodes' : Array (Stored × Nodes)) : Prop :=
  ∀ (id : Nat) x, nodes[id]? = some x → nodes'[id]? = some x

section Extending

variable {nodes nodes' nodes'' : Array (Stored × Nodes)}

theorem Extends.refl (nodes : Array (Stored × Nodes)) : Extends nodes nodes := fun _ _ h => h

theorem Extends.trans (h : Extends nodes nodes') (h' : Extends nodes' nodes'') :
    Extends nodes nodes'' :=
  fun id x hx => h' id x (h id x hx)

theorem Extends.push (nodes : Array (Stored × Nodes)) (x : Stored × Nodes) :
    Extends nodes (nodes.push x) := by
  intro id y hy
  have hid : id < nodes.size := (Array.getElem?_eq_some_iff.1 hy).1
  rw [Array.getElem?_push, if_neg (Nat.ne_of_lt hid), hy]

mutual

theorem Stored.LiesIn.mono (h : Extends nodes nodes') :
    ∀ {v : Stored}, v.LiesIn nodes → v.LiesIn nodes'
  | .list l, hv => Nodes.LiesIn.mono h (l := l) hv
  | .number _, _ | .text _, _ | .boolean _, _ | .procedure _, _ => trivial

theorem Nodes.LiesIn.mono (h : Extends nodes nodes') :
    ∀ {l : Nodes}, l.LiesIn nodes → l.LiesIn nodes'
  | .empty, _ => trivial
  | .node id _ _, ⟨hid, hhead, htail⟩ => ⟨h id _ hid, hhead.mono h, htail.mono h⟩

end

theorem Nodes.LiesIn.element : ∀ {l : Nodes}, l.LiesIn nodes → ∀ v ∈ l.elements, v.LiesIn nodes
  | .empty, _, v, hv => by cases hv
  | .node _ head tail, ⟨_, hhead, htail⟩, v, hv => by
    obtain rfl | hv := List.mem_cons.1 hv
    · exact hhead
    · exact htail.element v hv

theorem Nodes.LiesIn.tail {l : Nodes} (h : l.LiesIn nodes) : l.tail.LiesIn nodes := by
  cases l with
  | empty => trivial
  | node id head tail => exact h.2.2

end Extending

namespace Memory

/-- A list that was made lies in the memory, as does all that was there before. -/
structure Lies (nodes : Array (Stored × Nodes)) (l : Made) : Prop where
  list : l.1.LiesIn l.2
  older : Extends nodes l.2

theorem Lies.cons {nodes : Array (Stored × Nodes)} {l : Made} (h : Lies nodes l) {v : Stored}
    (hv : v.LiesIn nodes) : Lies nodes (Memory.cons v l) := by
  have hgrown : Extends l.2 (l.2.push (v, l.1)) := .push _ _
  have hnew : (l.2.push (v, l.1))[l.2.size]? = some (v, l.1) := by simp
  exact ⟨⟨hnew, (hv.mono h.older).mono hgrown, h.list.mono hgrown⟩, h.older.trans hgrown⟩

theorem Lies.finishOnto {nodes : Array (Stored × Nodes)} {l : Made} (h : Lies nodes l)
    {staged : List Stored} (hv : ∀ v ∈ staged, v.LiesIn nodes) :
    Lies nodes (Memory.finishOnto staged l) := by
  induction staged with
  | nil => exact h
  | cons v staged ih =>
    exact (ih fun w hw => hv w (List.mem_cons_of_mem _ hw)).cons (hv v List.mem_cons_self)

theorem members_finishOnto (staged : List Stored) (l : Made) :
    (finishOnto staged l).1.members = staged.map Stored.value ++ l.1.members := by
  induction staged with
  | nil => rfl
  | cons v staged ih => exact congrArg (v.value :: ·) ih

/-- Every list that somebody has lies in memory. -/
def Sound (s : Memory) : Prop := ∀ l ∈ s.lists, l.LiesIn s.nodes

theorem Sound.has {s : Memory} (h : s.Sound) {v : Stored} (hv : s.Has v) : v.LiesIn s.nodes := by
  cases hv with
  | plain hplain =>
    cases v with
    | list l => cases hplain
    | _ => trivial
  | list hl => exact h _ hl
  | member hl hv => exact (h _ hl).element _ hv

/-- What is made is the list that it is meant to be, and nothing happens to other lists. -/
theorem Makes.made {s : Memory} (h : s.Sound) {l : Made} {items : List Value} (hm : s.Makes l items) :
    l.1.members = items ∧ Lies s.nodes l := by
  have hempty : Lies s.nodes (.empty, s.nodes) := ⟨trivial, .refl _⟩
  have hstaged : ∀ {staged : List Stored}, (∀ v ∈ staged, s.Has v) →
      ∀ v ∈ staged, v.LiesIn s.nodes := fun hv v hm => h.has (hv v hm)
  cases hm with
  | empty => exact ⟨rfl, hempty⟩
  | keep hl => exact ⟨rfl, h.has hl, .refl _⟩
  | @tail l hl => exact ⟨l.members_tail, (h l hl).tail, .refl _⟩
  | @cons v l hv hl =>
    have hlies : Lies s.nodes (l, s.nodes) := ⟨h l hl, .refl _⟩
    exact ⟨rfl, hlies.cons (h.has hv)⟩
  | @withLast v l hv hl =>
    refine ⟨?_, hempty.finishOnto fun w hw => ?_⟩
    · rw [Memory.withLast, members_finishOnto, List.map_append, l.map_value_elements]
      simp [Nodes.members]
    · obtain hw | hw := List.mem_append.1 hw
      · exact (h l hl).element w hw
      · rw [List.mem_singleton.1 hw]
        exact h.has hv
  | @withoutLast l hl =>
    refine ⟨?_, hempty.finishOnto fun w hw => (h l hl).element w (List.dropLast_subset _ hw)⟩
    rw [Memory.withoutLast, members_finishOnto, List.map_dropLast, l.map_value_elements]
    simp [Nodes.members]
  | @finish staged hv =>
    refine ⟨?_, hempty.finishOnto (hstaged hv)⟩
    rw [members_finishOnto, Builder.finish_extend]
    simp [Nodes.members, Builder.finish, Builder.finishOnto]
  | @finishOnto staged l hv hl =>
    have hlies : Lies s.nodes (l, s.nodes) := ⟨h l hl, .refl _⟩
    refine ⟨?_, hlies.finishOnto (hstaged hv)⟩
    rw [members_finishOnto, Builder.finishOnto_eq, Builder.finish_extend]
    simp [Builder.finish, Builder.finishOnto]

theorem Reachable.sound {s : Memory} (h : s.Reachable) : s.Sound := by
  induction h with
  | new => exact fun l hl => by cases hl
  | make _ hm ih =>
    obtain ⟨-, hlies⟩ := hm.made ih
    intro l hl
    obtain rfl | hl := List.mem_cons.1 hl
    · exact hlies.list
    · exact (ih l hl).mono hlies.older

end Memory

/-- **Equality of values is structural.** It is symmetric and transitive, a value that holds no "not
a number" at any depth equals itself, and one that does equals nothing; values of different kinds
are never equal, and lists are equal exactly when they are equally long and equal at every
place. For lists that are kept as nodes, in whatever ways they were made, comparing them with the
shortcut for common nodes says the same, unless both hold "not a number" and have nodes in
common. -/
theorem equality_structural :
    (∀ a b : Value, a.equal b = b.equal a) ∧
    (∀ a b c : Value, a.equal b = true → b.equal c = true → a.equal c = true) ∧
    (∀ v : Value, v.holdsNaN = false → v.equal v = true) ∧
    (∀ v w : Value, v.holdsNaN = true → v.equal w = false) ∧
    (∀ a b : Value, a.kindName ≠ b.kindName → a.equal b = false) ∧
    (∀ as bs : List Value,
      (Value.list as).equal (.list bs) = true ↔ Value.EqualEverywhere as bs) ∧
    ∀ s : Memory, s.Reachable →
      (∀ l items, s.Makes l items → l.1.members = items) ∧
      ∀ a ∈ s.lists, ∀ b ∈ s.lists,
        (a.Apart b → (a.equal b = true ↔ Value.EqualEverywhere a.members b.members)) ∧
        ((∀ i ∈ a.ids, i ∉ b.ids) → Value.anyHoldsNaN a.members = true → a.equal b = false) := by
  refine ⟨Value.equal_comm, fun a b c => Value.equal_trans, fun v => Value.equal_self,
    fun v w hv => Value.not_equal_of_holdsNaN hv w, fun a b hk => ?_,
    fun as bs => Value.equal_list_iff, fun s hs => ⟨fun l items hm => (hm.made hs.sound).1, ?_⟩⟩
  · rw [Bool.eq_false_iff]
    exact fun h => hk (Value.equal_iff.1 h).kindName
  · intro a ha b hb
    have hplain : a.Apart b → a.equal b = Value.equalAll a.members b.members :=
      Nodes.equal_eq (hs.sound a ha) (hs.sound b hb)
    refine ⟨fun hapart => ?_, fun hids hnan => ?_⟩
    · rw [hplain hapart]
      exact Value.equalAll_iff
    · rw [hplain (.inr (.inr hids))]
      exact Value.not_equal_of_holdsNaN (v := .list a.members) hnan (.list b.members)

namespace Trial

/-- The list `b`, the list `a b` with it as its rest, another list `a b`, and two lists that hold
"not a number". -/
def shelf : Memory :=
  let rest : Nodes := .node 0 (.text "b") .empty
  let nan : Stored := .number (0.0 / 0.0)
  ⟨#[(.text "b", .empty), (.text "a", rest), (.text "b", .empty),
      (.text "a", .node 2 (.text "b") .empty), (nan, .empty), (nan, .empty)],
    [.node 5 nan .empty, .node 4 nan .empty, .node 3 (.text "a") (.node 2 (.text "b") .empty),
      .node 1 (.text "a") rest, rest]⟩

theorem shelf_reachable : shelf.Reachable := by
  have hplain : ∀ {s : Memory} {v : Stored}, v.value.asList? = none → ∀ w ∈ [v], s.Has w := by
    intro s v hv w hw
    rw [List.mem_singleton.1 hw]
    exact .plain hv
  have h₁ := Memory.Reachable.new.make (.finish (hplain (v := .text "b") rfl))
  have h₂ := h₁.make (.cons (v := .text "a") (.plain rfl) List.mem_cons_self)
  have h₃ := h₂.make (.finish fun w (hw : w ∈ [Stored.text "a", .text "b"]) => by
    obtain rfl | hw := List.mem_cons.1 hw
    · exact .plain rfl
    · exact hplain rfl w hw)
  have h₄ := h₃.make (.finish (hplain (v := .number (0.0 / 0.0)) rfl))
  exact h₄.make (.finish (hplain (v := .number (0.0 / 0.0)) rfl))

end Trial

/-- Lists with the same members are equal, with nodes in common or without; two lists with "not a
number" are not. -/
theorem equality_structural_trial :
    let rest : Nodes := .node 0 (.text "b") .empty
    let nan : Stored := .number (0.0 / 0.0)
    Trial.shelf.Reachable ∧
      (Nodes.node 1 (.text "a") rest).equal (.node 3 (.text "a") (.node 2 (.text "b") .empty)) = true ∧
      (Nodes.node 1 (.text "a") rest).equal rest = false ∧
      (Nodes.node 5 nan .empty).equal (.node 4 nan .empty) = false := by
  intro rest nan
  obtain ⟨-, -, -, -, -, -, hmemory⟩ := equality_structural
  obtain ⟨-, hlists⟩ := hmemory _ Trial.shelf_reachable
  have hlonger : Nodes.node 1 (.text "a") rest ∈ Trial.shelf.lists := by simp [Trial.shelf, rest]
  have hcopy : Nodes.node 3 (.text "a") (.node 2 (.text "b") .empty) ∈ Trial.shelf.lists := by
    simp [Trial.shelf]
  have hrest : rest ∈ Trial.shelf.lists := by simp [Trial.shelf, rest]
  have hfirst : Nodes.node 5 nan .empty ∈ Trial.shelf.lists := List.mem_cons_self
  have hsecond : Nodes.node 4 nan .empty ∈ Trial.shelf.lists :=
    List.mem_cons_of_mem _ List.mem_cons_self
  refine ⟨Trial.shelf_reachable, ?_, ?_, ?_⟩
  · refine ((hlists _ hlonger _ hcopy).1 (.inl rfl)).2 ⟨rfl, fun i hi _ => ?_⟩
    obtain rfl | rfl : i = 0 ∨ i = 1 := by
      have hi : i < 2 := hi
      omega
    · rfl
    · rfl
  · rw [Bool.eq_false_iff]
    intro h
    cases (((hlists _ hlonger _ hrest).1 (.inl rfl)).1 h).1
  · exact (hlists _ hfirst _ hsecond).2 (by decide) (by decide)

end Logo
