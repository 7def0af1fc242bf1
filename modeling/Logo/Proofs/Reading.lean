import Logo.Proofs.Paths

/-!
# What reading a phrase yields

A run that reads one operand or one expression, and nothing else, ends with a
value and the tokens that are left, or with a fault. `Config.YieldsBy` says so
of a run that takes at most `n` steps to it. The frame lemmas say how the
outcome of a part becomes the outcome of what waits for it.
-/

namespace Logo
set_option autoImplicit false

variable {σ : Type}

/-- How the reading of a phrase ends. -/
inductive Reading (σ : Type) where
  /-- With a value, or none, and the tokens that are left. -/
  | value (v : Option Value) (rest : List Value) (m : Machine σ)
  | failure (f : Fault) (m : Machine σ)

/-- What reading from `tokens` on a machine can lead to. -/
abbrev Reader (σ : Type) := Machine σ → List Value → Reading σ → Prop

namespace Config

def reading? (c : Config σ) : Option (Reading σ) :=
  match c.focus with
  | .reply v => some (.value v c.tokens c.machine)
  | .raise f => some (.failure f c.machine)
  | _ => none

/-- The run comes to this end within `n` steps. -/
def YieldsBy (between : Engine σ → Engine σ → Prop) (n : Nat) (c : Config σ) (r : Reading σ) : Prop :=
  ∃ j d, j ≤ n ∧ Path between j c d ∧ d.pending = [] ∧ d.reading? = some r

def Yields (between : Engine σ → Engine σ → Prop) (c : Config σ) (r : Reading σ) : Prop :=
  ∃ n, c.YieldsBy between n r

theorem settled_of_reading? {c : Config σ} {r : Reading σ} (hp : c.pending = [])
    (hr : c.reading? = some r) : c.Settled := by
  refine settled_iff.2 ⟨hp, ?_⟩
  simp only [reading?] at hr
  split at hr
  · exact .inl ⟨_, by assumption⟩
  · exact .inr ⟨_, by assumption⟩
  · cases hr

theorem Settled.reading? {c : Config σ} (h : c.Settled) :
    c.pending = [] ∧ ((∃ v, c = ⟨c.machine, .reply v, c.tokens, []⟩ ∧
        c.reading? = some (.value v c.tokens c.machine)) ∨
      ∃ f, c = ⟨c.machine, .raise f, c.tokens, []⟩ ∧ c.reading? = some (.failure f c.machine)) := by
  obtain ⟨m, focus, tokens, pending⟩ := c
  obtain ⟨rfl, ⟨v, rfl⟩ | ⟨f, rfl⟩⟩ := settled_iff.1 h
  · exact ⟨rfl, .inl ⟨v, rfl, rfl⟩⟩
  · exact ⟨rfl, .inr ⟨f, rfl, rfl⟩⟩

/-- A run that has come to a value is at its end with it. -/
theorem eq_of_reading? {c : Config σ} {v : Option Value} {rest : List Value} {m : Machine σ}
    (hp : c.pending = []) (hr : c.reading? = some (.value v rest m)) :
    c = ⟨m, .reply v, rest, []⟩ := by
  obtain ⟨m', focus, tokens, pending⟩ := c
  obtain rfl : pending = [] := hp
  cases focus with
  | reply v' =>
    cases hr
    rfl
  | _ => cases hr

section Frames

variable {between : Engine σ → Engine σ → Prop} {n : Nat} {r : Reading σ}

theorem YieldsBy.mono {c : Config σ} {k : Nat} (h : c.YieldsBy between n r) (hk : n ≤ k) :
    c.YieldsBy between k r := by
  obtain ⟨j, d, hj, h⟩ := h
  exact ⟨j, d, by omega, h⟩

/-- A run at its end has come to no other. -/
theorem YieldsBy.of_reply {m : Machine σ} {v : Option Value} {tokens : List Value}
    (h : (⟨m, .reply v, tokens, []⟩ : Config σ).YieldsBy between n r) : r = .value v tokens m := by
  obtain ⟨j, d, hj, h, hp, hr⟩ := h
  obtain ⟨-, rfl⟩ := h.eq_of_settled ⟨_, _, rfl⟩
  exact (Option.some.inj hr).symm

theorem YieldsBy.of_raise {m : Machine σ} {f : Fault} {tokens : List Value}
    (h : (⟨m, .raise f, tokens, []⟩ : Config σ).YieldsBy between n r) : r = .failure f m := by
  obtain ⟨j, d, hj, h, hp, hr⟩ := h
  obtain ⟨-, rfl⟩ := h.eq_of_settled ⟨_, _, rfl⟩
  exact (Option.some.inj hr).symm

theorem yieldsBy_reply (m : Machine σ) (v : Option Value) (tokens : List Value) :
    (⟨m, .reply v, tokens, []⟩ : Config σ).YieldsBy between n (.value v tokens m) :=
  ⟨0, _, by omega, .refl _, rfl, rfl⟩

theorem yieldsBy_raise (m : Machine σ) (f : Fault) (tokens : List Value) :
    (⟨m, .raise f, tokens, []⟩ : Config σ).YieldsBy between n (.failure f m) :=
  ⟨0, _, by omega, .refl _, rfl, rfl⟩

theorem YieldsBy.of_go {a b : Config σ} (h : a.YieldsBy between n r) (hs : step a = .go b) :
    ∃ i, n = i + 1 ∧ b.YieldsBy between i r := by
  obtain ⟨j, d, hj, h, hp, hr⟩ := h
  obtain ⟨i, rfl, h'⟩ := h.of_go (settled_of_reading? hp hr) hs
  exact ⟨n - 1, by omega, i, d, by omega, h', hp, hr⟩

theorem YieldsBy.go {a b : Config σ} (hs : step a = .go b) (h : b.YieldsBy between n r) :
    a.YieldsBy between (n + 1) r := by
  obtain ⟨j, d, hj, h, hp, hr⟩ := h
  exact ⟨j + 1, d, by omega, .go hs h, hp, hr⟩

theorem yields_reply_iff {m : Machine σ} {v : Option Value} {tokens : List Value} :
    (⟨m, .reply v, tokens, []⟩ : Config σ).Yields between r ↔ r = .value v tokens m := by
  constructor
  · rintro ⟨n, h⟩
    exact h.of_reply
  · rintro rfl
    exact ⟨0, yieldsBy_reply m v tokens⟩

theorem yields_raise_iff {m : Machine σ} {f : Fault} {tokens : List Value} :
    (⟨m, .raise f, tokens, []⟩ : Config σ).Yields between r ↔ r = .failure f m := by
  constructor
  · rintro ⟨n, h⟩
    exact h.of_raise
  · rintro rfl
    exact ⟨0, yieldsBy_raise m f tokens⟩

theorem yields_go_iff {a b : Config σ} (hs : step a = .go b) :
    a.Yields between r ↔ b.Yields between r := by
  constructor
  · rintro ⟨n, h⟩
    obtain ⟨i, -, h'⟩ := h.of_go hs
    exact ⟨i, h'⟩
  · rintro ⟨n, h⟩
    exact ⟨n + 1, .go hs h⟩

/-- The end of a part is handed to the frame `p` around it, or makes it give up. -/
theorem YieldsBy.split {a : Config σ} {p : Pending} (h : (a.under [p]).YieldsBy between n r) :
    (∃ v rest m, a.YieldsBy between n (.value v rest m) ∧
      (⟨m, .reply v, rest, [p]⟩ : Config σ).YieldsBy between n r) ∨
    ∃ f m, a.YieldsBy between n (.failure f m) ∧ r = .failure f (abandon m p) := by
  obtain ⟨j, d, hj, h, hp, hr⟩ := h
  obtain ⟨i, j, b, rfl, hb, h₁, h₂⟩ := h.split (settled_of_reading? hp hr)
  obtain ⟨hbp, ⟨v, hv, hbr⟩ | ⟨f, hf, hbr⟩⟩ := hb.reading?
  · rw [hv] at h₂
    exact .inl ⟨v, b.tokens, b.machine, ⟨i, b, by omega, h₁, hbp, hbr⟩, j, d, by omega, h₂, hp, hr⟩
  · rw [hf] at h₂
    obtain ⟨k, rfl, h₃⟩ := h₂.of_go (settled_of_reading? hp hr) rfl
    obtain ⟨-, rfl⟩ := h₃.eq_of_settled ⟨_, _, rfl⟩
    exact .inr ⟨f, b.machine, ⟨i, b, by omega, h₁, hbp, hbr⟩, (Option.some.inj hr).symm⟩

theorem Yields.join {a : Config σ} {p : Pending} {v : Option Value} {rest : List Value}
    {m : Machine σ} (h : a.Yields between (.value v rest m))
    (h' : (⟨m, .reply v, rest, [p]⟩ : Config σ).Yields between r) :
    (a.under [p]).Yields between r := by
  obtain ⟨n, i, d, hi, h, hp, hd⟩ := h
  obtain ⟨k, j, d', hj, h', hp', hr⟩ := h'
  obtain rfl := eq_of_reading? hp hd
  exact ⟨_, _, d', Nat.le_refl _, (h.under [p]).trans h', hp', hr⟩

theorem Yields.abandoned {a : Config σ} {f : Fault} {m : Machine σ}
    (h : a.Yields between (.failure f m)) (p : Pending) :
    (a.under [p]).Yields between (.failure f (abandon m p)) := by
  obtain ⟨n, i, d, hi, h, hp, hd⟩ := h
  obtain ⟨-, ⟨v, he, hv⟩ | ⟨f', he, hv⟩⟩ := (settled_of_reading? hp hd).reading?
  · rw [hv] at hd
    cases hd
  · have hff := hv.symm.trans hd
    simp only [Option.some.injEq, Reading.failure.injEq] at hff
    obtain ⟨rfl, hm⟩ := hff
    rw [he, hm] at h
    exact ⟨_, _, ⟨abandon m p, .raise f', d.tokens, []⟩, Nat.le_refl _,
      (h.under [p]).trans (.go rfl (.refl _)), rfl, rfl⟩

end Frames

end Config

end Logo
