import Logo.Proofs.Scoping

/-!
# Shared cells

Names mean cells, and a cell may be known under many names in many frames. Whoever assigns
through one of them is seen through exactly those that mean the same cell, and giving a name
another cell is noticed only from where the name is found in that frame. What was handed out
before keeps its cell and its value. This holds of every scope graph that can be made
(`cells_shared_along_names`). All that has to be known about one is that a parent is older than
its children, and that names mean cells which are there (`Scopes.Sound`).
-/

namespace Logo
set_option autoImplicit false

namespace Text

/-- The same letter, but for the case of an ASCII letter. -/
def AgreeLetters (a b : Char) : Prop :=
  a = b ∨ (a.isUpper = true ∧ b.toNat = a.toNat + 32) ∨ (b.isUpper = true ∧ a.toNat = b.toNat + 32)

/-- The same name, but for the case of ASCII letters. -/
def AgreeNames (a b : String) : Prop := List.Forall₂ AgreeLetters a.toList b.toList

theorem isUpper_iff {a : Char} : a.isUpper = true ↔ 65 ≤ a.toNat ∧ a.toNat ≤ 90 := by
  simp [Char.isUpper, UInt32.le_iff_toNat_le, ← Char.toNat_val]

theorem toNat_toLower (a : Char) :
    a.toLower.toNat = if a.isUpper = true then a.toNat + 32 else a.toNat := by
  by_cases h : a.isUpper = true
  · have hrange := isUpper_iff.1 h
    have hval : a.toLower.val = a.val + 32 := by
      simp only [Char.isUpper, decide_eq_true_eq] at h
      simp only [Char.toLower, dif_pos h]
      rfl
    rw [if_pos h, ← Char.toNat_val, hval, UInt32.toNat_add, Char.toNat_val]
    exact Nat.mod_eq_of_lt (by simp; omega)
  · rw [if_neg h]
    simp only [Char.isUpper, decide_eq_true_eq] at h
    simp only [Char.toLower, dif_neg h]

theorem toLower_eq_iff {a b : Char} : a.toLower = b.toLower ↔ AgreeLetters a b := by
  rw [← Char.toNat_inj, toNat_toLower, toNat_toLower, AgreeLetters, ← Char.toNat_inj]
  have ha := isUpper_iff (a := a)
  have hb := isUpper_iff (a := b)
  split <;> split <;> simp_all <;> omega

theorem fold_eq_iff {a b : String} : fold a = fold b ↔ AgreeNames a b := by
  have hlists : fold a = fold b ↔ a.toList.map Char.toLower = b.toList.map Char.toLower := by
    rw [← String.toList_inj, fold, fold, String.toList_map, String.toList_map]
  rw [hlists, AgreeNames, ← List.forall₂_eq_eq_eq, List.forall₂_map_left_iff,
    List.forall₂_map_right_iff]
  simp only [toLower_eq_iff]

end Text

namespace Scopes

variable {s s' : Scopes} {f g h : FrameId} {name : String} {c : CellId}

/-! ### The graphs that can be made -/

/-- What can be done to a scope graph. -/
inductive Use where
  | root
  | child (f : FrameId)
  | cell (v : Option Value)
  | declare (f : FrameId) (name : String) (v : Option Value)
  | bind (f : FrameId) (name : String) (v : Value)
  | share (f : FrameId) (name : String) (c : CellId)
  | assign (f : FrameId) (name : String) (v : Value)
  | write (c : CellId) (v : Value)

def after (s : Scopes) : Use → Scopes
  | .root => s.root.2
  | .child f => (s.child f).2
  | .cell v => (s.cell v).2
  | .declare f name v => (s.declare f name v).2
  | .bind f name v => s.bind f name v
  | .share f name c => s.share f name c
  | .assign f name v => (s.assign? f name v).getD s
  | .write c v => s.write c v

/-- Are the frame and the cell that are used there? -/
def Offers (s : Scopes) : Use → Prop
  | .root | .cell _ => True
  | .child f | .declare f _ _ | .bind f _ _ | .assign f _ _ => f < s.frames.size
  | .share f _ c => f < s.frames.size ∧ c < s.cells.size
  | .write c _ => c < s.cells.size

/-- The graph comes from an empty one by being used. -/
inductive Reachable : Scopes → Prop where
  | empty : Reachable ⟨#[], #[]⟩
  | use {s : Scopes} (u : Use) : Reachable s → s.Offers u → Reachable (s.after u)

/-- A parent is older than its children, and a name means a cell that is there. -/
structure Sound (s : Scopes) : Prop where
  older : ∀ f p, s.parent? f = some p → p < f
  known : ∀ f key c, s.cellAt? f key = some c → c < s.cells.size

theorem parent?_of_frames (hs : s'.frames = s.frames) (f : FrameId) :
    s'.parent? f = s.parent? f := by
  rw [parent?, parent?, hs]

theorem cellAt?_of_frames (hs : s'.frames = s.frames) (f : FrameId) (key : String) :
    s'.cellAt? f key = s.cellAt? f key := by
  rw [cellAt?, cellAt?, hs]

theorem frames_share (f : FrameId) (name : String) (c : CellId) (g : FrameId) :
    (s.share f name c).frames[g]?
      = if f = g then s.frames[g]?.map fun frame => frame.put (Text.fold name) c
        else s.frames[g]? :=
  Array.getElem?_modify

/-- Nothing that is done to its names changes the parent of a frame. -/
theorem parent?_share (f : FrameId) (name : String) (c : CellId) (g : FrameId) :
    (s.share f name c).parent? g = s.parent? g := by
  rw [parent?, parent?, frames_share]
  split
  · cases s.frames[g]? <;> rfl
  · rfl

/-- Sharing a cell changes one entry of one frame. -/
theorem cellAt?_share (hf : f < s.frames.size) (c : CellId) (g : FrameId) (key : String) :
    (s.share f name c).cellAt? g key
      = if g = f ∧ key = Text.fold name then some c else s.cellAt? g key := by
  rw [cellAt?, cellAt?, frames_share]
  by_cases hg : f = g
  · subst hg
    rw [if_pos rfl, Array.getElem?_eq_getElem hf, Option.map_some, Option.bind_some, Option.bind_some]
    by_cases hk : key = Text.fold name
    · rw [if_pos ⟨rfl, hk⟩, hk, Frame.find?_put]
    · rw [if_neg fun h => hk h.2, Frame.find?_put_of_ne _ hk]
  · rw [if_neg hg, if_neg fun h => hg h.1.symm]

namespace Sound

theorem empty : Sound ⟨#[], #[]⟩ := by
  constructor
  · intro f p hp
    simp [parent?] at hp
  · intro f key c hc
    simp [cellAt?] at hc

/-- A new frame has an older parent or none, and no names. -/
theorem push (h : s.Sound) {parent : Option FrameId} (hp : ∀ p, parent = some p → p < s.frames.size) :
    Sound { s with frames := s.frames.push { parent } } := by
  constructor
  · intro f p hfp
    rw [parent?, Array.getElem?_push] at hfp
    split at hfp
    · rename_i hf
      rw [hf]
      exact hp p hfp
    · exact h.older f p hfp
  · intro f key c hc
    rw [cellAt?, Array.getElem?_push] at hc
    split at hc
    · cases hc
    · exact h.known f key c hc

/-- The cells may become more. -/
theorem of_frames (h : s.Sound) (hs : s'.frames = s.frames) (hc : s.cells.size ≤ s'.cells.size) :
    s'.Sound := by
  constructor
  · intro f p hp
    rw [parent?_of_frames hs] at hp
    exact h.older f p hp
  · intro f key c hk
    rw [cellAt?_of_frames hs] at hk
    exact Nat.lt_of_lt_of_le (h.known f key c hk) hc

theorem share (h : s.Sound) (hf : f < s.frames.size) (hc : c < s.cells.size) :
    (s.share f name c).Sound := by
  constructor
  · intro g p hp
    rw [parent?_share] at hp
    exact h.older g p hp
  · intro g key d hd
    rw [cellAt?_share hf] at hd
    split at hd
    · cases hd
      exact hc
    · exact h.known g key d hd

theorem cell (h : s.Sound) (v : Option Value) : (s.cell v).2.Sound :=
  h.of_frames rfl (by simp [Scopes.cell])

theorem declare (h : s.Sound) (hf : f < s.frames.size) (v : Option Value) :
    (s.declare f name v).2.Sound :=
  (h.cell v).share hf (by simp [Scopes.cell])

theorem write (h : s.Sound) (c : CellId) (v : Value) : (s.write c v).Sound :=
  h.of_frames rfl (by simp [Scopes.write])

end Sound

theorem Reachable.sound (h : s.Reachable) : s.Sound := by
  induction h with
  | empty => exact .empty
  | @use s u _ ho ih =>
    cases u with
    | root => exact ih.push fun p hp => by cases hp
    | child f =>
      refine ih.push fun p hp => ?_
      cases hp
      exact ho
    | cell v => exact ih.cell v
    | declare f name v => exact ih.declare ho v
    | bind f name v => exact ih.declare ho (some v)
    | share f name c => exact ih.share ho.1 ho.2
    | write c v => exact ih.write c v
    | assign f name v =>
      simp only [after, assign?]
      split
      · exact ih.write _ v
      · exact ih

/-- A cell that was made stays. -/
theorem size_cells_after (s : Scopes) (u : Use) : s.cells.size ≤ (s.after u).cells.size := by
  cases u with
  | root | child | share => exact le_rfl
  | cell | declare | bind => simp [after, bind, declare, cell, Scopes.share]
  | write => simp [after, write]
  | assign f name v =>
    simp only [after, assign?]
    split <;> simp [write]

/-! ### Looking outwards -/

/-- The way from a frame outwards: the frame, its parent, the parent of that, up to a frame that
has none. -/
inductive Outwards (s : Scopes) : FrameId → List FrameId → Prop where
  | outermost {f : FrameId} : s.parent? f = none → Outwards s f [f]
  | inside {f p : FrameId} {fs : List FrameId} : s.parent? f = some p → Outwards s p fs →
      Outwards s f (f :: fs)

/-- On the way from `g` outwards, `f` is the first frame that has the name. -/
def Finds (s : Scopes) (g : FrameId) (name : String) (f : FrameId) : Prop :=
  ∃ fs, s.Outwards g fs ∧ fs.find? (fun h => (s.localCell? h name).isSome) = some f

theorem Sound.exists_outwards (hs : s.Sound) (f : FrameId) : ∃ fs, s.Outwards f fs := by
  induction f using Nat.strongRecOn with
  | ind f ih =>
    cases hp : s.parent? f with
    | none => exact ⟨[f], .outermost hp⟩
    | some p =>
      obtain ⟨fs, hfs⟩ := ih p (hs.older f p hp)
      exact ⟨f :: fs, .inside hp hfs⟩

theorem Outwards.unique {fs fs' : List FrameId} (h : s.Outwards f fs) (h' : s.Outwards f fs') :
    fs = fs' := by
  induction h generalizing fs' with
  | outermost hp =>
    cases h' with
    | outermost => rfl
    | inside hp' _ => simp [hp] at hp'
  | inside hp _ ih =>
    cases h' with
    | outermost hp' => simp [hp] at hp'
    | inside hp' h' =>
      obtain rfl : _ = _ := Option.some.inj (hp.symm.trans hp')
      rw [ih h']

theorem Outwards.of_parent? {fs : List FrameId} (h : s.Outwards f fs)
    (hp : ∀ g, s'.parent? g = s.parent? g) : s'.Outwards f fs := by
  induction h with
  | outermost ho => exact .outermost ((hp _).trans ho)
  | inside hi _ ih => exact .inside ((hp _).trans hi) ih

/-- A name means its cell in the first frame on the way outwards that has it. -/
theorem Outwards.resolve? {fs : List FrameId} (h : s.Outwards f fs) (hs : s.Sound) (name : String) :
    s.resolve? f name = fs.findSome? fun g => s.localCell? g name := by
  induction h with
  | @outermost f hp =>
    rw [Scopes.resolve?, resolveKey?, List.findSome?_singleton, localCell?]
    rw [parent?] at hp
    cases hf : s.frames[f]? with
    | none => rfl
    | some frame =>
      rw [hf, Option.bind_some] at hp
      simp only [hp, Option.bind_some]
      cases frame.find? (Text.fold name) <;> rfl
  | @inside f p fs hp _ ih =>
    have hlink : s.Links f p := ⟨hp, hs.older f p hp⟩
    rw [Scopes.resolve?, hlink.resolveKey?, List.findSome?_cons, ← ih]
    show (s.localCell? f name).or _ = _
    cases s.localCell? f name <;> rfl

theorem Sound.resolve?_lt (hs : s.Sound) (hr : s.resolve? f name = some c) : c < s.cells.size := by
  obtain ⟨fs, hfs⟩ := hs.exists_outwards f
  rw [hfs.resolve? hs] at hr
  obtain ⟨g, -, hg⟩ := List.exists_of_findSome?_eq_some hr
  exact hs.known g (Text.fold name) c hg

/-- Where one place gets a new entry, the first entry on the way is that one if it is met first, and
else what it was. -/
theorem findSome?_update {u v : FrameId → Option CellId} (hv : ∀ g, g ≠ f → v g = u g)
    (hf : v f = some c) (fs : List FrameId) :
    fs.findSome? v = if fs.find? (fun g => (v g).isSome) = some f then some c else fs.findSome? u := by
  induction fs with
  | nil => rfl
  | cons g fs ih =>
    by_cases hg : g = f
    · subst hg
      simp [hf]
    · rw [List.findSome?_cons, List.findSome?_cons, List.find?_cons, hv g hg]
      cases u g with
      | none => exact ih
      | some d => simp [hg]

/-! ### What the uses do -/

/-- What becomes of a graph where a name in `f` gets the cell `c`. -/
structure Renames (f : FrameId) (name : String) (c : CellId) (s s' : Scopes) : Prop where
  /-- Who finds the name in `f` means that cell by it. -/
  found : ∀ g m, Text.AgreeNames m name → s'.Finds g m f → s'.resolve? g m = some c
  /-- Nobody else notices. -/
  changed : ∀ g m, s'.resolve? g m ≠ s.resolve? g m → Text.AgreeNames m name ∧ s'.Finds g m f
  /-- Every cell that was handed out holds what it held. -/
  cells : ∀ d, d < s.cells.size → s'.read d = s.read d

theorem localCell?_share (hf : f < s.frames.size) (c : CellId) (g : FrameId) (m : String) :
    (s.share f name c).localCell? g m
      = if g = f ∧ Text.fold m = Text.fold name then some c else s.localCell? g m :=
  cellAt?_share hf c g (Text.fold m)

/-- Another name is found where it was. -/
theorem resolve?_share_of_ne (hs : s.Sound) (hf : f < s.frames.size) (hc : c < s.cells.size)
    (g : FrameId) {m : String} (hm : Text.fold m ≠ Text.fold name) :
    (s.share f name c).resolve? g m = s.resolve? g m := by
  obtain ⟨fs, hfs⟩ := hs.exists_outwards g
  rw [(hfs.of_parent? (parent?_share f name c)).resolve? (hs.share hf hc), hfs.resolve? hs]
  congr 1
  funext h
  rw [localCell?_share hf, if_neg fun hh => hm hh.2]

theorem resolve?_share (hs : s.Sound) (hf : f < s.frames.size) (hc : c < s.cells.size)
    (g : FrameId) {m : String} (hm : Text.fold m = Text.fold name) :
    ((s.share f name c).Finds g m f ∧ (s.share f name c).resolve? g m = some c) ∨
      (¬ (s.share f name c).Finds g m f ∧ (s.share f name c).resolve? g m = s.resolve? g m) := by
  obtain ⟨fs, hfs⟩ := hs.exists_outwards g
  have hfs' : (s.share f name c).Outwards g fs := hfs.of_parent? (parent?_share f name c)
  rw [hfs'.resolve? (hs.share hf hc), hfs.resolve? hs]
  have hfirst := findSome?_update (u := fun h => s.localCell? h m)
    (v := fun h => (s.share f name c).localCell? h m) (f := f) (c := c)
    (fun h hh => by simp only [localCell?_share hf, if_neg fun hb : h = f ∧ _ => hh hb.1])
    (by simp only [localCell?_share hf, hm, and_self, if_true]) fs
  split at hfirst
  · exact .inl ⟨⟨fs, hfs', by assumption⟩, hfirst⟩
  · rename_i hnot
    refine .inr ⟨fun hfinds => ?_, hfirst⟩
    obtain ⟨fs', hway, hfind⟩ := hfinds
    exact hnot (hway.unique hfs' ▸ hfind)

theorem share_renames (hs : s.Sound) (hf : f < s.frames.size) (hc : c < s.cells.size) :
    Renames f name c s (s.share f name c) := by
  refine ⟨fun g m hm hfinds => ?_, fun g m hne => ?_, fun d _ => rfl⟩
  · obtain ⟨-, hr⟩ | ⟨hnot, -⟩ := resolve?_share hs hf hc g (Text.fold_eq_iff.2 hm)
    · exact hr
    · exact absurd hfinds hnot
  · by_cases hm : Text.fold m = Text.fold name
    · obtain ⟨hfinds, -⟩ | ⟨-, hsame⟩ := resolve?_share hs hf hc g hm
      · exact ⟨Text.fold_eq_iff.1 hm, hfinds⟩
      · exact absurd hsame hne
    · exact absurd (resolve?_share_of_ne hs hf hc g hm) hne

theorem read_cell (v : Option Value) : (s.cell v).2.read s.cells.size = v := by
  simp [read, cell]

theorem read_cell_of_lt (v : Option Value) {d : CellId} (hd : d < s.cells.size) :
    (s.cell v).2.read d = s.read d := by
  simp [read, cell, Array.getElem?_push, Nat.ne_of_lt hd]

/-- A name that is declared gets a cell that was not there before. -/
theorem declare_renames (hs : s.Sound) (hf : f < s.frames.size) (v : Option Value) :
    Renames f name s.cells.size s (s.declare f name v).2 := by
  have hcell : ∀ g m, (s.cell v).2.resolve? g m = s.resolve? g m := fun g m => resolveKey?_congr rfl
  have hshare : Renames f name s.cells.size (s.cell v).2 ((s.cell v).2.share f name s.cells.size) :=
    share_renames (hs.cell v) hf (by simp [cell])
  refine ⟨hshare.found, fun g m hne => hshare.changed g m ?_, fun d hd => ?_⟩
  · rwa [hcell]
  · exact read_cell_of_lt v hd

/-- What becomes of a graph where the cell `c` is assigned to: names mean what they meant, and those
that mean the cell have the new value. -/
structure Assigns (c : CellId) (v : Value) (s s' : Scopes) : Prop where
  resolve : ∀ g m, s'.resolve? g m = s.resolve? g m
  seen : ∀ g m, s.resolve? g m = some c → s'.lookup? g m = some v
  unseen : ∀ g m, s.resolve? g m ≠ some c → s'.lookup? g m = s.lookup? g m

theorem write_assigns (hc : c < s.cells.size) (v : Value) : Assigns c v s (s.write c v) := by
  refine ⟨fun g m => resolve?_write v, fun g m hr => ?_, fun g m hr => ?_⟩
  · rw [lookup?, resolve?_write, hr]
    exact read_write_self v hc
  · rw [lookup?, lookup?, resolve?_write]
    cases hm : s.resolve? g m with
    | none => rfl
    | some d => exact read_write_of_ne v fun hd => hr (hd ▸ hm)

end Scopes

/-- **Cells are shared exactly along names.** In every scope graph that can be made: an assignment
through a name that means a cell succeeds and is seen under exactly those names, in whatever
frames, that mean the same cell, and every other name keeps its value; an assignment through a
name that means none fails and changes nothing. Declaring, binding and sharing change what a name
means from a frame only if it is the same name up to the case of letters and is first found, on
the way outwards, in the frame where that was done. What was handed out before has its cell for
itself and holds what it held. -/
theorem cells_shared_along_names {s : Scopes} (hs : s.Reachable) {f : FrameId}
    (hf : f < s.frames.size) (name : String) :
    (∀ v c, s.resolve? f name = some c →
      ∃ s', s.assign? f name v = some s' ∧ Scopes.Assigns c v s s') ∧
    (∀ v, s.resolve? f name = none → s.assign? f name v = none ∧ s.after (.assign f name v) = s) ∧
    (∀ v, Scopes.Renames f name (s.declare f name v).1 s (s.declare f name v).2 ∧
      (s.declare f name v).2.read (s.declare f name v).1 = v) ∧
    (∀ v, Scopes.Renames f name s.cells.size s (s.bind f name v) ∧
      (s.bind f name v).read s.cells.size = some v) ∧
    (∀ c, c < s.cells.size → Scopes.Renames f name c s (s.share f name c)) ∧
    (∀ g m c, s.resolve? g m = some c → c < s.cells.size) ∧
    (∀ u, s.cells.size ≤ (s.after u).cells.size) ∧
    ∀ c, c < s.cells.size → ∀ v, (s.declare f name v).1 ≠ c ∧
      (s.declare f name v).2.read c = s.read c := by
  have hsound := hs.sound
  refine ⟨fun v c hr => ⟨s.write c v, ?_, Scopes.write_assigns (hsound.resolve?_lt hr) v⟩,
    fun v hr => ?_, fun v => ⟨Scopes.declare_renames hsound hf v, Scopes.read_cell v⟩,
    fun v => ⟨Scopes.declare_renames hsound hf (some v), Scopes.read_bind_new v⟩,
    fun c hc => Scopes.share_renames hsound hf hc, fun g m c => hsound.resolve?_lt,
    s.size_cells_after, fun c hc v => ⟨Nat.ne_of_gt hc, ?_⟩⟩
  · rw [Scopes.assign?, hr]
  · have hnone : s.assign? f name v = none := by rw [Scopes.assign?, hr]
    refine ⟨hnone, ?_⟩
    rw [Scopes.after, hnone]
    rfl
  · exact (Scopes.declare_renames hsound hf v).cells c hc

namespace Trial

/-- A frame in which `z` is another name for the outer `x`. -/
def entwined : Scopes :=
  [.root, .bind 0 "x" (.text "a"), .child 0, .bind 1 "y" (.text "b"), .share 1 "z" 0].foldl
    Scopes.after ⟨#[], #[]⟩

theorem entwined_reachable : entwined.Reachable := by
  simp only [entwined, List.foldl]
  refine .use _ (.use _ (.use _ (.use _ (.use _ .empty ?_) ?_) ?_) ?_) ?_
  · trivial
  · show 0 < 1
    decide
  · show 0 < 1
    decide
  · show 1 < 2
    decide
  · exact ⟨(by decide : 1 < 2), (by decide : 0 < 2)⟩

end Trial

/-- What is assigned through `z` is seen under `x`; a new `X` in the inner frame is not. -/
theorem cells_shared_along_names_trial :
    let s := Trial.entwined
    s.Reachable ∧ 1 < s.frames.size ∧
      (∃ s', s.assign? 1 "z" (.text "c") = some s' ∧ s'.lookup? 0 "x" = some (.text "c") ∧
        s'.lookup? 1 "y" = s.lookup? 1 "y") ∧
      (s.declare 1 "X" none).2.resolve? 1 "x" = some 2 ∧
      (s.declare 1 "X" none).2.read 0 = s.read 0 := by
  intro s
  have hf : 1 < s.frames.size := (by decide : 1 < 2)
  have hz : s.resolve? 1 "z" = some 0 := by cbv
  have hx : s.resolve? 0 "x" = some 0 := by cbv
  have hy : s.resolve? 1 "y" = some 1 := by cbv
  obtain ⟨hassign, -⟩ := cells_shared_along_names Trial.entwined_reachable hf "z"
  obtain ⟨-, -, hdeclare, -, -, -, -, hold⟩ :=
    cells_shared_along_names Trial.entwined_reachable hf "X"
  obtain ⟨s', hs', hseen⟩ := hassign (.text "c") 0 hz
  refine ⟨Trial.entwined_reachable, hf, ⟨s', hs', hseen.seen 0 "x" hx, hseen.unseen 1 "y" ?_⟩, ?_,
    (hold 0 (by decide : 0 < 2) none).2⟩
  · rw [hy]
    decide
  · refine (hdeclare none).1.found 1 "x" (Text.fold_eq_iff.1 (by cbv)) ⟨[1, 0], ?_, ?_⟩
    · exact .inside (p := 0) (by cbv) (.outermost (by cbv))
    · cbv

end Logo
