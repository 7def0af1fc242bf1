import Logo.Proofs.Bench
import Logo.Proofs.HostAssignment
import Logo.Proofs.Stacks
import Mathlib.Data.List.Chain

/-!
# Dynamic scoping

A name is looked for along the parents of the current frame, but what a run opens and leaves is
the stack of its live frames. The two agree at every moment: the parent of a live frame is the
one below it, and the parent of the lowest is the global frame (`Machine.Chained`). A frame gets
its parent when it is made and keeps it, whatever happens to its names (`Scopes.Spares`). So a
name means its cell in the innermost live frame that has it, or else in the global frame,
wherever the procedure that uses it was defined (`dynamic_scoping`).
-/

namespace Logo
set_option autoImplicit false

variable {σ : Type}

namespace Frame

theorem entry?_filter_of_ne {key key' : String} (h : key' ≠ key) (names : List (String × CellId)) :
    entry? key' (names.filter fun entry => entry.1 != key) = entry? key' names := by
  induction names with
  | nil => rfl
  | cons entry names ih =>
    by_cases hk : entry.1 = key
    · rw [List.filter_cons_of_neg (by simp [hk]), ih, entry?, if_neg]
      rw [hk]
      exact Ne.symm h
    · rw [List.filter_cons_of_pos (by simp [hk]), entry?, entry?, ih]

theorem find?_put_of_ne (f : Frame) {key key' : String} (h : key' ≠ key) (c : CellId) :
    (f.put key c).find? key' = f.find? key' := by
  rw [find?, put, entry?, if_neg (Ne.symm h), entry?_filter_of_ne h]
  rfl

end Frame

namespace Scopes

variable {s s' s'' : Scopes} {f g : FrameId} {key name : String} {c : CellId}

/-! ### Looking along a chain -/

/-- The cell of a folded name in frame `f` itself. -/
def cellAt? (s : Scopes) (f : FrameId) (key : String) : Option CellId :=
  s.frames[f]?.bind fun frame => frame.find? key

/-- The parent of `f` is `g`, which is older. -/
structure Links (s : Scopes) (f g : FrameId) : Prop where
  parent : s.parent? f = some g
  older : g < f

/-- The global frame is there and has no parent. -/
def Rooted (s : Scopes) : Prop := ∃ frame, s.frames[globalFrame]? = some frame ∧ frame.parent = none

theorem Links.resolveKey? (h : s.Links f g) (key : String) :
    s.resolveKey? f key = (s.cellAt? f key).or (s.resolveKey? g key) := by
  obtain ⟨hp, hlt⟩ := h
  obtain ⟨frame, hf, hp⟩ := Option.bind_eq_some_iff.1 hp
  rw [Scopes.resolveKey?, cellAt?, hf]
  simp only [hp, hlt, if_true, Option.bind_some]
  cases frame.find? key <;> rfl

theorem Rooted.resolveKey? (h : s.Rooted) (key : String) :
    s.resolveKey? globalFrame key = s.cellAt? globalFrame key := by
  obtain ⟨frame, hf, hp⟩ := h
  rw [Scopes.resolveKey?, cellAt?, hf]
  simp only [hp, Option.bind_some]
  cases frame.find? key <;> rfl

/-- Along a chain of parents down to the global frame, a name means its cell in the first frame
that has it. -/
theorem Rooted.resolveKey?_chain (hr : s.Rooted) {fs : List FrameId}
    (h : (fs ++ [globalFrame]).IsChain s.Links) (key : String) :
    s.resolveKey? (fs.headD globalFrame) key
      = (fs ++ [globalFrame]).findSome? fun f => s.cellAt? f key := by
  induction fs with
  | nil => simp [hr.resolveKey?]
  | cons f fs ih =>
    have hlink : s.Links f (fs.headD globalFrame) := by
      cases fs with
      | nil => exact (List.isChain_cons_cons.1 h).1
      | cons g fs => exact (List.isChain_cons_cons.1 h).1
    rw [List.headD_cons, hlink.resolveKey?, List.cons_append, List.findSome?_cons, ih h.tail]
    cases s.cellAt? f key <;> rfl

/-! ### What is spared -/

/-- What becomes of the frames when names are bound in frame `f`: each is still there with its
parent, all but `f` and the global frame are what they were, and the global frame keeps its names
unless it is `f`. -/
structure Spares (f : FrameId) (s s' : Scopes) : Prop where
  parent : ∀ (g : FrameId) (frame : Frame), s.frames[g]? = some frame →
    ∃ frame' : Frame, s'.frames[g]? = some frame' ∧ frame'.parent = frame.parent
  other : ∀ g : FrameId, g < s.frames.size → g ≠ f → g ≠ globalFrame → s'.frames[g]? = s.frames[g]?
  global : f ≠ globalFrame → ∀ key c, s.cellAt? globalFrame key = some c →
    s'.cellAt? globalFrame key = some c

theorem Spares.of_frames (h : s'.frames = s.frames) : Spares f s s' := by
  refine ⟨fun g frame hg => ⟨frame, ?_, rfl⟩, fun g _ _ _ => ?_, fun _ key c hc => ?_⟩
  · rwa [h]
  · rw [h]
  · rwa [cellAt?, h]

theorem Spares.trans (h : Spares f s s') (h' : Spares f s' s'') : Spares f s s'' := by
  refine ⟨fun g frame hg => ?_, fun g hg hf h0 => ?_, fun hf key c hc => ?_⟩
  · obtain ⟨frame', hg', hp⟩ := h.parent g frame hg
    obtain ⟨frame'', hg'', hp'⟩ := h'.parent g frame' hg'
    exact ⟨frame'', hg'', hp'.trans hp⟩
  · have hsame := h.other g hg hf h0
    have hg' : g < s'.frames.size := by
      rw [Array.getElem?_eq_getElem hg] at hsame
      exact (Array.getElem?_eq_some_iff.1 hsame).1
    rw [h'.other g hg' hf h0, hsame]
  · exact h'.global hf key c (h.global hf key c hc)

theorem Spares.foldl {α : Type} {k : Scopes → α → Scopes} (hk : ∀ s a, Spares f s (k s a))
    (items : List α) (s : Scopes) : Spares f s (items.foldl k s) := by
  induction items generalizing s with
  | nil => exact .of_frames rfl
  | cons a items ih => exact (hk s a).trans (ih (k s a))

/-- A name may be bound in `f`, or in the global frame if that does not have it. -/
theorem share_spares (c : CellId)
    (hg : g = f ∨ g = globalFrame ∧ s.localCell? globalFrame name = none) :
    Spares f s (s.share g name c) := by
  have hframes : ∀ h, (s.share g name c).frames[h]?
      = if g = h then s.frames[h]?.map fun frame => frame.put (Text.fold name) c
        else s.frames[h]? := fun h => Array.getElem?_modify
  refine ⟨fun h frame hh => ?_, fun h _ hf h0 => ?_, fun hf key c' hc => ?_⟩
  · rw [hframes, hh]
    by_cases hgh : g = h
    · exact ⟨_, if_pos hgh, rfl⟩
    · exact ⟨frame, if_neg hgh, rfl⟩
  · rw [hframes, if_neg]
    rintro rfl
    obtain rfl | ⟨rfl, -⟩ := hg
    · exact hf rfl
    · exact h0 rfl
  · rw [cellAt?, hframes]
    by_cases hg0 : g = globalFrame
    · obtain rfl | ⟨-, hnone⟩ := hg
      · exact absurd hg0 hf
      · obtain ⟨frame, hframe, hfind⟩ := Option.bind_eq_some_iff.1 hc
        have hne : key ≠ Text.fold name := by
          rintro rfl
          rw [localCell?, hframe, Option.bind_some, hfind] at hnone
          cases hnone
        rw [if_pos hg0, hframe, Option.map_some, Option.bind_some, Frame.find?_put_of_ne _ hne, hfind]
    · rw [if_neg hg0]
      exact hc

theorem declare_spares (v : Option Value)
    (hg : g = f ∨ g = globalFrame ∧ s.localCell? globalFrame name = none) :
    Spares f s (s.declare g name v).2 := by
  have hcell : Spares f s (s.cell v).2 := .of_frames rfl
  exact hcell.trans (share_spares _ hg)

theorem bind_spares (v : Value)
    (hg : g = f ∨ g = globalFrame ∧ s.localCell? globalFrame name = none) :
    Spares f s (s.bind g name v) :=
  declare_spares (some v) hg

theorem declareLocal_spares (f : FrameId) (s : Scopes) (name : String) :
    Spares f s (Primitive.declareLocal f s name) := by
  unfold Primitive.declareLocal
  split
  · exact .of_frames rfl
  · exact declare_spares none (.inl rfl)

theorem tieGlobal_spares (f : FrameId) (s : Scopes) (name : String) :
    Spares f s (Primitive.tieGlobal f s name) := by
  unfold Primitive.tieGlobal
  split
  · split
    · exact .of_frames rfl
    · exact share_spares _ (.inl rfl)
  · rename_i hnone
    have hdeclare : Spares f s (s.declare globalFrame name none).2 :=
      declare_spares none (.inr ⟨rfl, hnone⟩)
    simp only
    split
    · exact hdeclare
    · exact hdeclare.trans (share_spares _ (.inl rfl))

/-- A new frame spares all that there are. -/
theorem child_spares (s : Scopes) (g : FrameId) : Spares s.frames.size s (s.child g).2 := by
  have hframes : ∀ h, h < s.frames.size → (s.child g).2.frames[h]? = s.frames[h]? := by
    intro h hh
    rw [child, Array.getElem?_push, if_neg (Nat.ne_of_lt hh)]
  refine ⟨fun h frame hh => ⟨frame, ?_, rfl⟩, fun h hh _ _ => hframes h hh, fun _ key c hc => ?_⟩
  · rw [hframes h (Array.getElem?_eq_some_iff.1 hh).1, hh]
  · obtain ⟨frame, hframe, -⟩ := Option.bind_eq_some_iff.1 hc
    rw [cellAt?, hframes _ (Array.getElem?_eq_some_iff.1 hframe).1]
    exact hc

theorem Spares.rooted (h : Spares f s s') (hr : s.Rooted) : s'.Rooted := by
  obtain ⟨frame, hframe, hp⟩ := hr
  obtain ⟨frame', hframe', hp'⟩ := h.parent globalFrame frame hframe
  exact ⟨frame', hframe', hp'.trans hp⟩

theorem Spares.parent? (h : Spares f s s') {p : FrameId} (hp : s.parent? g = some p) :
    s'.parent? g = some p := by
  obtain ⟨frame, hframe, hp⟩ := Option.bind_eq_some_iff.1 hp
  obtain ⟨frame', hframe', hp'⟩ := h.parent g frame hframe
  rw [Scopes.parent?, hframe', Option.bind_some, hp', hp]

theorem Spares.chain (h : Spares f s s') {fs : List FrameId} (hc : fs.IsChain s.Links) :
    fs.IsChain s'.Links :=
  hc.imp fun _ _ hl => ⟨h.parent? hl.parent, hl.older⟩

end Scopes

/-! ### Machines -/

namespace Machine

/-- The frames in which a name is looked for, in this order. -/
def chain (m : Machine σ) : List FrameId := m.live.frames ++ [globalFrame]

/-- The cell of a name in the innermost live frame that has it, or else in the global frame. -/
def cell? (m : Machine σ) (name : String) : Option CellId :=
  m.chain.findSome? fun f => m.engine.scopes.localCell? f name

def value? (m : Machine σ) (name : String) : Option Value :=
  (m.cell? name).bind m.engine.scopes.read

/-- The parent of a live frame is the live frame below it; the parent of the lowest is the global
frame, which has none. -/
structure Chained (m : Machine σ) : Prop where
  rooted : m.engine.scopes.Rooted
  linked : m.chain.IsChain m.engine.scopes.Links

/-- A name that no frame of the chain has is not a global one. -/
theorem localCell?_of_cell? {m : Machine σ} {name : String} (h : m.cell? name = none) :
    m.engine.scopes.localCell? globalFrame name = none :=
  List.findSome?_eq_none_iff.1 h globalFrame (List.mem_append_right _ (List.mem_singleton_self _))

namespace Chained

variable {m m' : Machine σ}

theorem resolve? (h : m.Chained) (name : String) :
    m.engine.scopes.resolve? m.currentFrame name = m.cell? name :=
  h.rooted.resolveKey?_chain h.linked (Text.fold name)

theorem lookup? (h : m.Chained) (name : String) : m.lookup? name = m.value? name := by
  rw [Machine.lookup?, Scopes.lookup?, h.resolve?]
  rfl

theorem of_spares (h : m.Chained) {f : FrameId}
    (hs : Scopes.Spares f m.engine.scopes m'.engine.scopes) (hl : m'.live.frames = m.live.frames) :
    m'.Chained := by
  refine ⟨hs.rooted h.rooted, ?_⟩
  rw [chain, hl]
  exact hs.chain h.linked

theorem of_same (h : m.Chained) (hs : m'.engine.scopes = m.engine.scopes)
    (hl : m'.live.frames = m.live.frames) : m'.Chained :=
  h.of_spares (f := globalFrame) (.of_frames (by rw [hs])) hl

/-- A live frame has the next one for its parent. -/
theorem link (h : m.Chained) {f : FrameId} {fs : List FrameId} (hm : m.live.frames = f :: fs) :
    m.engine.scopes.Links f (fs.headD globalFrame) := by
  have hl := h.linked
  rw [chain, hm] at hl
  cases fs with
  | nil => exact (List.isChain_cons_cons.1 hl).1
  | cons g fs => exact (List.isChain_cons_cons.1 hl).1

theorem currentFrame_lt (h : m.Chained) : m.currentFrame < m.engine.scopes.frames.size := by
  unfold currentFrame
  cases hfs : m.live.frames with
  | nil =>
    obtain ⟨frame, hframe, -⟩ := h.rooted
    exact (Array.getElem?_eq_some_iff.1 hframe).1
  | cons f fs =>
    obtain ⟨frame, hframe, -⟩ := Option.bind_eq_some_iff.1 (h.link hfs).parent
    exact (Array.getElem?_eq_some_iff.1 hframe).1

end Chained

/-- Opening a frame spares all that there are. -/
theorem openFrame_spares (m : Machine σ) (bindings : List (String × Value)) :
    Scopes.Spares m.engine.scopes.frames.size m.engine.scopes
      (m.openFrame bindings).engine.scopes :=
  (Scopes.child_spares m.engine.scopes m.currentFrame).trans
    (.foldl (fun _ b => Scopes.bind_spares b.2 (.inl rfl)) bindings _)

theorem Chained.openFrame {m : Machine σ} (h : m.Chained) (bindings : List (String × Value)) :
    (m.openFrame bindings).Chained := by
  have hs := m.openFrame_spares bindings
  refine ⟨hs.rooted h.rooted, ?_⟩
  have hbelow : m.chain.IsChain (m.openFrame bindings).engine.scopes.Links := hs.chain h.linked
  have hlink : (m.openFrame bindings).engine.scopes.Links m.engine.scopes.frames.size
      m.currentFrame := by
    refine ⟨?_, h.currentFrame_lt⟩
    -- The frame gets its parent when it is made, and keeps it while its names are bound.
    have hchild : (m.engine.scopes.child m.currentFrame).2.parent? m.engine.scopes.frames.size
        = some m.currentFrame := by
      simp [Scopes.parent?, Scopes.child]
    have hnames : Scopes.Spares m.engine.scopes.frames.size
        (m.engine.scopes.child m.currentFrame).2 (m.openFrame bindings).engine.scopes :=
      .foldl (fun _ b => Scopes.bind_spares b.2 (.inl rfl)) bindings _
    exact hnames.parent? hchild
  have hchain : (m.openFrame bindings).chain = m.engine.scopes.frames.size :: m.chain := rfl
  rw [hchain]
  unfold chain currentFrame at *
  cases hfs : m.live.frames with
  | nil =>
    rw [hfs] at hlink hbelow
    exact List.isChain_cons_cons.2 ⟨hlink, hbelow⟩
  | cons f fs =>
    rw [hfs] at hlink hbelow
    exact List.isChain_cons_cons.2 ⟨hlink, hbelow⟩

theorem Chained.closeFrame {m : Machine σ} (h : m.Chained) : m.closeFrame.Chained := by
  refine ⟨h.rooted, ?_⟩
  have hl := h.linked
  unfold chain at hl
  show (m.live.frames.tail ++ [globalFrame]).IsChain m.engine.scopes.Links
  cases hfs : m.live.frames with
  | nil => rwa [hfs] at hl
  | cons f fs =>
    rw [hfs] at hl
    exact hl.tail

theorem Chained.abandon {m : Machine σ} (h : m.Chained) (p : Pending) :
    (Logo.abandon m p).Chained := by
  cases p with
  | activation => exact h.closeFrame.of_same rfl rfl
  | template => exact h.closeFrame
  | counter => exact h.of_same rfl rfl
  | _ => exact h

end Machine

/-! ### Primitives -/

namespace Primitive

theorem perform_frames (p : Primitive) (inputs : List Value) (m : Machine σ) :
    (p.perform inputs m).2.live.frames = m.live.frames := by
  obtain h | ⟨v, -, -, h, -⟩ := p.perform_live inputs m
  · rw [h]
  · rw [h]
    rfl

theorem assign_spares {m : Machine σ} (hm : m.Chained) (name : String) (v : Value) :
    Scopes.Spares m.currentFrame m.engine.scopes (assign m name v).engine.scopes := by
  simp only [assign, Machine.mapScopes]
  split
  · exact .of_frames rfl
  · rename_i hnone
    rw [hm.resolve?] at hnone
    exact Scopes.bind_spares v (.inr ⟨rfl, Machine.localCell?_of_cell? hnone⟩)

/-- A primitive binds names in the current frame, or in the global frame names that it does not
have. -/
theorem perform_spares {m : Machine σ} (hm : m.Chained) (p : Primitive) (inputs : List Value) :
    Scopes.Spares m.currentFrame m.engine.scopes (p.perform inputs m).2.engine.scopes := by
  have hdone := p.perform_performs inputs m
  generalize p.perform inputs m = done at hdone ⊢
  cases hdone with
  | defines name params body => exact Scopes.bind_spares _ (.inl rfl)
  | assigns name v => exact assign_spares hm name v
  | declares names => exact .foldl (Scopes.declareLocal_spares _) names _
  | ties names => exact .foldl (Scopes.tieGlobal_spares _) names _
  | refuses | plans | finishes | writes => exact .of_frames rfl

end Primitive

/-! ### Steps -/

theorem Config.After.chained {m : Machine σ} {pending : List Pending} {c : Config σ}
    (h : Config.After m pending c) (hm : m.Chained) : c.machine.Chained := by
  cases h with
  | goes work _ _ => exact hm.of_same rfl rfl
  | framed bindings _ _ _ => exact hm.openFrame bindings
  | called bindings _ _ => exact (hm.openFrame bindings).of_same rfl rfl
  | counted block total => exact hm.of_same rfl rfl

theorem Machine.Chained.setCounter {m : Machine σ} (h : m.Chained) (n : Nat) :
    (m.setCounter n).Chained := by
  unfold Machine.setCounter
  split
  · exact h.of_same rfl rfl
  · exact h

theorem Config.Turn.chained {c c' : Config σ} (h : c.Turn c') (hc : c.machine.Chained) :
    c'.machine.Chained := by
  cases h with
  | works _ _ h => exact h.chained hc
  | @performs m p inputs _ _ _ _ _ =>
    exact hc.of_spares (p.perform_spares hc (p.given inputs)) (p.perform_frames _ m)
  | holds _ => exact hc
  | passes _ _ => exact hc.setCounter _
  | leaves _ _ => exact hc
  | resumes _ _ h => exact h.chained hc
  | turns => exact hc
  | closes _ _ _ => exact hc.abandon _

/-! ### Reachable moments -/

theorem bind_rooted {s : Scopes} (h : s.Rooted) (name : String) (v : Value) :
    (s.bind globalFrame name v).Rooted :=
  (Scopes.bind_spares (f := globalFrame) v (.inl rfl)).rooted h

theorem Engine.new_rooted (memory : σ) (sink : Sink) (depthLimit : Nat) (primitives : Bool) :
    (Engine.new memory sink depthLimit primitives).scopes.Rooted := by
  have hinitial : Scopes.initial.Rooted := ⟨{}, rfl, rfl⟩
  have hbind : ∀ (s : Scopes) (p : Primitive), Scopes.Spares globalFrame s (bindPrimitive s p) :=
    fun s p => .foldl (fun _ _ => Scopes.bind_spares _ (.inl rfl)) _ s
  cases primitives with
  | false => exact hinitial
  | true => exact (Scopes.Spares.foldl hbind Primitive.all Scopes.initial).rooted hinitial

/-- Names that the host sets or binds are global ones. -/
theorem Engine.handle_spares (e : Engine σ) (h : Handling σ) :
    Scopes.Spares globalFrame e.scopes (e.handle h).scopes := by
  cases h with
  | signal s =>
    simp only [Engine.handle, e.answerSignal_engine s]
    exact .of_frames rfl
  | set name v => exact Scopes.bind_spares v (.inl rfl)
  | bind name f => exact Scopes.bind_spares _ (.inl rfl)
  | elapse nanoseconds => exact .of_frames rfl
  | toss answersFirst => exact .of_frames rfl

theorem lasting_chained : Bench.Lasting (fun e : Engine σ => e.scopes.Rooted)
    fun c => c.machine.Chained where
  start := by
    intro e program he
    have hstart : (Thread.start program).live.frames = [] := by
      cases program <;> rfl
    refine ⟨he, ?_⟩
    unfold Machine.chain Thread.config
    rw [hstart]
    exact List.isChain_singleton _
  step := fun c c' hc hs => (step_turn hs).chained hc
  engine := fun c hc => hc.rooted
  release := fun e he => he
  handle := fun e h he => (e.handle_spares h).rooted he
  suspended := fun t e h hc => hc.of_spares (e.handle_spares h) rfl

theorem Bench.Reaches.chained {memory : σ} {sink : Sink} {depthLimit : Nat} {primitives : Bool}
    {c : Config σ}
    (hc : (Bench.of (Engine.new memory sink depthLimit primitives)).Reaches c) : c.machine.Chained :=
  lasting_chained.reaches rfl (Engine.new_rooted memory sink depthLimit primitives) hc

/-! ### What names mean -/

/-- From `s` to `s'` a name is made in the global frame, in a cell of its own, and nothing else
changes. -/
structure Scopes.Creates (s s' : Scopes) (name : String) (v : Value) : Prop where
  cell : s'.localCell? globalFrame name = some s.cells.size
  value : s'.read s.cells.size = some v
  frames : ∀ f, f ≠ globalFrame → s'.frames[f]? = s.frames[f]?
  names : ∀ name', Text.fold name' ≠ Text.fold name →
    s'.localCell? globalFrame name' = s.localCell? globalFrame name'
  cells : ∀ c, c < s.cells.size → s'.read c = s.read c

theorem Scopes.Rooted.creates {s : Scopes} (h : s.Rooted) (name : String) (v : Value) :
    s.Creates (s.bind globalFrame name v) name v where
  cell := by
    obtain ⟨frame, hframe, -⟩ := h
    rw [localCell?, frames_bind, if_pos rfl, hframe]
    exact Frame.find?_put frame _ _
  value := read_bind_new v
  frames := fun f hf => by rw [frames_bind, if_neg (Ne.symm hf)]
  names := by
    intro name' hne
    obtain ⟨frame, hframe, -⟩ := h
    rw [localCell?, localCell?, frames_bind, if_pos rfl, hframe]
    exact Frame.find?_put_of_ne frame hne _
  cells := fun c hc => read_bind_old v hc

/-- What `make` does with a name that a frame of the chain has, or none. -/
def Machine.Makes (m : Machine σ) (name : String) (v : Value) (m' : Machine σ) : Prop :=
  m'.live = m.live ∧
  match m.cell? name with
  | some cell => m'.engine.scopes = m.engine.scopes.write cell v
  | none => m.engine.scopes.Creates m'.engine.scopes name v

/-- Names mean what they do in the innermost live frame that has them, or else in the global
frame. -/
structure Machine.DynamicallyScoped (m : Machine σ) : Prop where
  /-- Each frame has the one below it for its parent, and the lowest the global frame. -/
  parents : (m.live.frames ++ [globalFrame]).IsChain fun f g => m.engine.scopes.parent? f = some g
  /-- The case of letters does not matter. -/
  folded : ∀ name name', Text.sameName name name' = true → m.cell? name = m.cell? name'
  read : ∀ name tokens pending, act m (.read name) tokens pending
    = ⟨m, match m.value? name with
      | some v => .reply (some v)
      | none => .raise (.noValue name), tokens, pending⟩
  thing : ∀ w name, Primitive.thing.taker.name w = .ok name →
    Primitive.thing.perform [w] m = (match m.value? name with
      | some v => .ok (.reply (some v))
      | none => .error (.noValue name), m)
  procedure : ∀ name, m.procedure name = match m.value? name with
    | some (.procedure p) => .ok p
    | some _ => .error (.notProcedure name)
    | none => .error (.unknownProcedure name)
  make : ∀ w name v, Primitive.make.taker.name w = .ok name →
    (Primitive.make.perform [w, v] m).1 = .ok (.reply none) ∧
      m.Makes name v (Primitive.make.perform [w, v] m).2

theorem Machine.Chained.assign {m : Machine σ} (h : m.Chained) (name : String) (v : Value) :
    m.Makes name v (Primitive.assign m name v) := by
  refine ⟨rfl, ?_⟩
  simp only [Primitive.assign, Machine.mapScopes, h.resolve?]
  cases m.cell? name with
  | some cell => rfl
  | none => exact h.rooted.creates name v

theorem Machine.Chained.dynamicallyScoped {m : Machine σ} (h : m.Chained) :
    m.DynamicallyScoped where
  parents := h.linked.imp fun _ _ hl => hl.parent
  folded := by
    intro name name' hn
    have hfold : Text.fold name = Text.fold name' := eq_of_beq hn
    simp only [Machine.cell?, Scopes.localCell?, hfold]
  read := by
    intro name tokens pending
    simp only [act, h.lookup?]
    cases m.value? name <;> rfl
  thing := by
    intro w name hw
    show (Primitive.thing.plan [w] m, m) = _
    simp only [Primitive.plan, Primitive.one, hw, bind, Except.bind, h.lookup?]
    cases m.value? name <;> rfl
  procedure := by
    intro name
    have hprocedure : m.procedure name = match m.lookup? name with
      | some (.procedure p) => .ok p
      | some _ => .error (.notProcedure name)
      | none => .error (.unknownProcedure name) := rfl
    rw [hprocedure, h.lookup?]
  make := by
    intro w name v hw
    have hperform : Primitive.make.perform [w, v] m
        = (.ok (.reply none), Primitive.assign m name v) := by
      simp only [Primitive.perform, Primitive.two, hw]
      rfl
    rw [hperform]
    exact ⟨rfl, h.assign name v⟩

/-- **Dynamic scoping.** At every moment of every run, whatever has been done to the engine and its
runs, the live frames are a chain of parents down to the global frame. Hence a variable that is
read, `thing`, a procedure that is named and `make` all mean the name in the innermost live frame
that has it, or else in the global frame; and `make` of a name that none of them has makes it in
the global frame and nowhere else. -/
theorem dynamic_scoping (memory : σ) (sink : Sink) (depthLimit : Nat) (primitives : Bool)
    (c : Config σ) (hc : (Bench.of (Engine.new memory sink depthLimit primitives)).Reaches c) :
    c.machine.DynamicallyScoped :=
  hc.chained.dynamicallyScoped

namespace Trial

/-- A run of `x` waits for the engine, where `x` applies a template that prints its input. -/
def nesting : List (Deed Unit) :=
  let body := [.text "i", .list [.list [.text "y"], .text "p", .text ":y"], .text "\"a"]
  [.handle (.set "x" (.procedure (.defined 0 "x" [] body))),
    .handle (.set "i" (.procedure (.primitive .invoke))),
    .handle (.set "p" (.procedure (.primitive .print))), .start 0 "x"]

end Trial

/-- Inside of a template that a procedure applies, the name that the template declares as `y` is
found, also as `Y`. -/
theorem dynamic_scoping_trial :
    ∃ c, (Bench.of (Engine.new () .silent 10 false)).Reaches c ∧ c.machine.live.frames = [2, 1] ∧
      (c.machine.value? "Y").map Value.render = some "a" ∧ c.machine.DynamicallyScoped := by
  let b := (Bench.of (Engine.new () .silent 10 false)).follow Trial.nesting
  obtain ⟨-, hmoments⟩ := Bench.begun_make_poll (b := b) 0 rfl rfl Trial.parse_x 22
  have hany : (((b.begun 0 [.text "x"]).momentsOf (.poll 0 22)).any fun c =>
      c.machine.live.frames == [2, 1] && (c.machine.value? "y").map Value.render == some "a") = true := by
    decide +kernel
  obtain ⟨c, hc, hat⟩ := List.any_eq_true.1 hany
  rw [hmoments] at hc
  have hreach : (Bench.of (Engine.new () .silent 10 false)).Reaches c := by
    refine .steps (Trial.nesting ++ [.poll 0 22]) ?_
    show c ∈ b.momentsOf (.poll 0 22) ++ []
    exact List.mem_append_left _ hc
  rw [Bool.and_eq_true, beq_iff_eq, beq_iff_eq] at hat
  have hscoped := dynamic_scoping () .silent 10 false c hreach
  have hupper : Text.fold "Y" = "y" := by decide +kernel
  have hlower : Text.fold "y" = "y" := by decide +kernel
  have hsame : Text.sameName "Y" "y" = true := by rw [Text.sameName, hupper, hlower, beq_self_eq_true]
  refine ⟨c, hreach, hat.1, ?_, hscoped⟩
  rw [Machine.value?, hscoped.folded "Y" "y" hsame]
  exact hat.2

end Logo
