import Logo.Proofs.Schedules

/-!
# Assignment by the host

`make` at top level writes into the cell that the global name has, so whoever shares the
cell sees it. `Engine.setGlobal` gives the name a new cell instead. A frame that finds the
name in the global frame itself cannot tell the two apart, but one that was tied to the old
cell by `global` keeps it: it goes on reading the old value, and what it assigns is not
seen under the global name any more (`setGlobal_seen_where_found`).
-/

namespace Logo
set_option autoImplicit false

namespace Frame

theorem find?_put (f : Frame) (key : String) (c : CellId) : (f.put key c).find? key = some c := by
  simp [find?, put, entry?]

end Frame

namespace Scopes

/-- The frame in which a folded name is found: `f` or else the nearest frame outwards. -/
def home? (s : Scopes) (f : FrameId) (key : String) : Option FrameId :=
  match s.frames[f]? with
  | none => none
  | some frame =>
    match frame.find? key with
    | some _ => some f
    | none =>
      match frame.parent with
      | none => none
      | some p => if p < f then s.home? p key else none
termination_by f

variable {s : Scopes} {f g h : FrameId} {key name : String} {c : CellId}

/-- A name means the cell that it has where it is found. -/
theorem resolveKey?_of_home? (hh : s.home? f key = some h) :
    s.resolveKey? f key = s.frames[h]?.bind fun frame => frame.find? key := by
  fun_induction home? s f key with
  | case1 f hf => cases hh
  | case2 f frame hf c hc =>
    cases hh
    rw [resolveKey?, hf]
    simp only [hc, Option.bind_some]
  | case3 f frame hf hc hp => cases hh
  | case4 f frame hf hc p hp hlt ih =>
    rw [resolveKey?, hf]
    simp only [hc, hp, hlt, if_true]
    exact ih hh
  | case5 f frame hf hc p hp hlt => cases hh

theorem exists_home?_of_resolveKey? (hr : s.resolveKey? f key = some c) :
    ∃ h, s.home? f key = some h := by
  fun_induction resolveKey? s f key with
  | case1 f hf => cases hr
  | case2 f frame hf c' hc =>
    rw [home?, hf]
    simp only [hc]
    exact ⟨f, rfl⟩
  | case3 f frame hf hc hp => cases hr
  | case4 f frame hf hc p hp hlt ih =>
    rw [home?, hf]
    simp only [hc, hp, hlt, if_true]
    exact ih hr
  | case5 f frame hf hc p hp hlt => cases hr

theorem resolve?_of_localCell? (hc : s.localCell? f name = some c) : s.resolve? f name = some c := by
  obtain ⟨frame, hf, hc⟩ := Option.bind_eq_some_iff.1 hc
  rw [resolve?, resolveKey?, hf]
  simp only [hc]

/-- Where a name is found hangs on the frames alone. -/
theorem resolveKey?_congr {s' : Scopes} (hs : s'.frames = s.frames) :
    s'.resolveKey? f key = s.resolveKey? f key := by
  fun_induction resolveKey? s f key with
  | case1 f hf => rw [resolveKey?, hs, hf]
  | case2 f frame hf c hc =>
    rw [resolveKey?, hs, hf]
    simp only [hc]
  | case3 f frame hf hc hp =>
    rw [resolveKey?, hs, hf]
    simp only [hc, hp]
  | case4 f frame hf hc p hp hlt ih =>
    rw [resolveKey?, hs, hf]
    simp only [hc, hp, hlt, if_true]
    exact ih
  | case5 f frame hf hc p hp hlt =>
    rw [resolveKey?, hs, hf]
    simp only [hc, hp, hlt, if_false]

/-! ### Writing -/

theorem resolve?_write (v : Value) : (s.write c v).resolve? f name = s.resolve? f name :=
  resolveKey?_congr rfl

theorem read_write_self (v : Value) (hc : c < s.cells.size) : (s.write c v).read c = some v := by
  simp [read, write, hc]

theorem read_write_of_ne {c' : CellId} (v : Value) (hc : c' ≠ c) :
    (s.write c v).read c' = s.read c' := by
  simp [read, write, Ne.symm hc]

/-! ### Binding anew -/

theorem frames_bind (v : Value) : (s.bind g name v).frames[f]?
    = if g = f then s.frames[f]?.map fun frame => frame.put (Text.fold name) s.cells.size
      else s.frames[f]? :=
  Array.getElem?_modify

theorem read_bind_new (v : Value) : (s.bind g name v).read s.cells.size = some v := by
  simp [read, bind, declare, cell, share]

theorem read_bind_old (v : Value) (hc : c < s.cells.size) : (s.bind g name v).read c = s.read c := by
  simp [read, bind, declare, cell, share, Array.getElem?_push, Nat.ne_of_lt hc]

/-- Binding a name anew in a frame that has it changes nothing about where it is found. -/
theorem home?_bind (v : Value) (hg : s.localCell? g name = some c) :
    (s.bind g name v).home? f (Text.fold name) = s.home? f (Text.fold name) := by
  -- frames outwards of `f`; only `g` has changed, and it has the name before and after
  induction f using Nat.strongRecOn with
  | ind f ih =>
    rw [home?, home?, frames_bind]
    cases hf : s.frames[f]? with
    | none => simp
    | some frame =>
      by_cases hgf : g = f
      · subst hgf
        obtain ⟨frame', hf', hc⟩ := Option.bind_eq_some_iff.1 hg
        obtain rfl : frame = frame' := by simpa [hf] using hf'
        simp only [if_true, Option.map_some, Frame.find?_put, hc]
      · simp only [hgf, if_false]
        split
        · rfl
        · split
          · rfl
          · rename_i p _
            split
            · rename_i hlt
              exact ih p hlt
            · rfl

/-- A frame that finds a name where it is bound anew means the new cell by it. -/
theorem resolve?_bind_of_home? (v : Value) (hg : s.localCell? g name = some c)
    (hh : s.home? f (Text.fold name) = some g) :
    (s.bind g name v).resolve? f name = some s.cells.size := by
  obtain ⟨frame, hf, -⟩ := Option.bind_eq_some_iff.1 hg
  rw [resolve?, resolveKey?_of_home? ((home?_bind v hg).trans hh), frames_bind, if_pos rfl, hf]
  simp only [Option.map_some, Option.bind_some, Frame.find?_put]

/-- A frame that finds the name elsewhere means the same cell as before. -/
theorem resolve?_bind_of_ne (v : Value) (hg : s.localCell? g name = some c)
    (hh : s.home? f (Text.fold name) = some h) (hne : h ≠ g) :
    (s.bind g name v).resolve? f name = s.resolve? f name := by
  rw [resolve?, resolve?, resolveKey?_of_home? ((home?_bind v hg).trans hh), resolveKey?_of_home? hh,
    frames_bind, if_neg (Ne.symm hne)]

end Scopes

section Machines

variable {σ : Type} {m : Machine σ} {name : String} {c : CellId}

theorem assign_scopes_of_resolve? (hm : m.engine.scopes.resolve? m.currentFrame name = some c)
    (w : Value) : (Primitive.assign m name w).engine.scopes = m.engine.scopes.write c w := by
  simp only [Primitive.assign, Machine.mapScopes, hm]

/-- What a frame assigns through the cell of the global name is its global value. -/
theorem global?_assign (hg : m.engine.scopes.localCell? globalFrame name = some c)
    (hm : m.engine.scopes.resolve? m.currentFrame name = some c)
    (hc : c < m.engine.scopes.cells.size) (w : Value) :
    (Primitive.assign m name w).engine.global? name = some w := by
  unfold Engine.global? Scopes.lookup?
  rw [assign_scopes_of_resolve? hm, Scopes.resolve?_write, Scopes.resolve?_of_localCell? hg]
  exact Scopes.read_write_self w hc

/-- What a frame assigns through another cell does not change the global value. -/
theorem global?_assign_of_ne {c' : CellId}
    (hg : m.engine.scopes.localCell? globalFrame name = some c')
    (hm : m.engine.scopes.resolve? m.currentFrame name = some c) (hne : c' ≠ c) (w : Value) :
    (Primitive.assign m name w).engine.global? name = m.engine.global? name := by
  unfold Engine.global? Scopes.lookup?
  rw [assign_scopes_of_resolve? hm, Scopes.resolve?_write, Scopes.resolve?_of_localCell? hg]
  exact Scopes.read_write_of_ne w hne

/-- **Assignment by the host is seen where the name is found in the global frame.** Take a
machine that means the cell of a global name by that name. After `make` at top level it reads
the new value, and what it assigns later is the global value. After an assignment by the host
the same holds if it finds the name in the global frame itself. If it was tied to the cell by
`global`, it reads what it read before, and what it assigns is not the global value. -/
theorem setGlobal_seen_where_found (m : Machine σ) (name : String) (v w : Value) (c : CellId)
    (hg : m.engine.scopes.localCell? globalFrame name = some c)
    (hm : m.engine.scopes.resolve? m.currentFrame name = some c)
    (hc : c < m.engine.scopes.cells.size) :
    let made : Machine σ := ⟨(Primitive.assign ⟨m.engine, {}⟩ name v).engine, m.live⟩
    let set : Machine σ := ⟨m.engine.setGlobal name v, m.live⟩
    let home := m.engine.scopes.home? m.currentFrame (Text.fold name)
    (made.lookup? name = some v ∧ (Primitive.assign made name w).engine.global? name = some w) ∧
    (home = some globalFrame → set.lookup? name = some v ∧
      (Primitive.assign set name w).engine.global? name = some w) ∧
    (home ≠ some globalFrame → set.lookup? name = m.lookup? name ∧
      (Primitive.assign set name w).engine.global? name = some v) := by
  intro made set home
  have hset : set.engine.scopes.localCell? globalFrame name = some m.engine.scopes.cells.size := by
    obtain ⟨frame, hf, -⟩ := Option.bind_eq_some_iff.1 hg
    show ((m.engine.scopes.bind globalFrame name v).frames[globalFrame]?).bind _ = _
    rw [Scopes.frames_bind, if_pos rfl, hf]
    exact Frame.find?_put _ _ _
  refine ⟨?_, fun hh => ?_, fun hh => ?_⟩
  · have hmade : made.engine.scopes = m.engine.scopes.write c v :=
      assign_scopes_of_resolve? (m := ⟨m.engine, {}⟩) (Scopes.resolve?_of_localCell? hg) v
    have hcell : made.engine.scopes.resolve? made.currentFrame name = some c := by
      rw [hmade, Scopes.resolve?_write]
      exact hm
    constructor
    · show made.engine.scopes.lookup? made.currentFrame name = some v
      rw [Scopes.lookup?, hcell, hmade]
      exact Scopes.read_write_self v hc
    · refine global?_assign ?_ hcell ?_ w
      · rw [hmade]
        exact hg
      · rw [hmade]
        simpa [Scopes.write] using hc
  · have hcell : set.engine.scopes.resolve? set.currentFrame name
        = some m.engine.scopes.cells.size := Scopes.resolve?_bind_of_home? v hg hh
    constructor
    · show set.engine.scopes.lookup? set.currentFrame name = some v
      rw [Scopes.lookup?, hcell]
      exact Scopes.read_bind_new v
    · refine global?_assign hset hcell ?_ w
      simp [set, Engine.setGlobal, Scopes.bind, Scopes.declare, Scopes.cell, Scopes.share]
  · obtain ⟨h, hhome⟩ := Scopes.exists_home?_of_resolveKey? hm
    have hne : h ≠ globalFrame := fun heq => hh (heq ▸ hhome)
    have hcell : set.engine.scopes.resolve? set.currentFrame name = some c :=
      (Scopes.resolve?_bind_of_ne v hg hhome hne).trans hm
    constructor
    · show set.engine.scopes.lookup? set.currentFrame name
        = m.engine.scopes.lookup? m.currentFrame name
      rw [Scopes.lookup?, Scopes.lookup?, hcell, hm]
      exact Scopes.read_bind_old v hc
    · rw [global?_assign_of_ne hset hcell (Nat.ne_of_gt hc) w]
      show set.engine.scopes.lookup? globalFrame name = some v
      rw [Scopes.lookup?, Scopes.resolve?_of_localCell? hset]
      exact Scopes.read_bind_new v

end Machines

namespace Trial

/-- A machine in a frame that is tied to the global `n`. -/
def inTiedFrame : Machine Unit :=
  let s := ((Scopes.initial.bind globalFrame "n" (.text "old")).child globalFrame).2
  ⟨{ Engine.new () .silent 10 false with scopes := Primitive.tieGlobal 1 s "n" }, { frames := [1] }⟩

end Trial

theorem setGlobal_seen_where_found_tied :
    let m := Trial.inTiedFrame
    let made : Machine Unit := ⟨(Primitive.assign ⟨m.engine, {}⟩ "n" (.text "new")).engine, m.live⟩
    let set : Machine Unit := ⟨m.engine.setGlobal "n" (.text "new"), m.live⟩
    m.lookup? "n" = some (.text "old") ∧ made.lookup? "n" = some (.text "new") ∧
      set.lookup? "n" = some (.text "old") ∧
      (Primitive.assign set "n" (.text "later")).engine.global? "n" = some (.text "new") := by
  intro m made set
  have hg : m.engine.scopes.localCell? globalFrame "n" = some 0 := by cbv
  have hm : m.engine.scopes.resolve? m.currentFrame "n" = some 0 := by cbv
  have hc : 0 < m.engine.scopes.cells.size := by
    have hsize : m.engine.scopes.cells.size = 1 := by cbv
    omega
  have hhome : m.engine.scopes.home? m.currentFrame (Text.fold "n") = some 1 := by cbv
  have hold : m.lookup? "n" = some (.text "old") := by cbv
  obtain ⟨⟨hmade, -⟩, -, htied⟩ :=
    setGlobal_seen_where_found m "n" (.text "new") (.text "later") 0 hg hm hc
  obtain ⟨hset, hlater⟩ := htied (by rw [hhome]; decide)
  exact ⟨hold, hmade, hset.trans hold, hlater⟩

namespace Trial

/-- An engine on which `x` ties itself to the global `n`, then prints and assigns it in a loop. -/
def tied : Engine Unit :=
  let template := [.list [.text "i"], .text "print", .text ":n", .text "make", .text "\"n", .text ":i"]
  let body := [.text "global", .text "\"n", .text "foreach", .list [.text "later"], .list template]
  ([Primitive.globalName, .foreach, .print, .make].foldl
    (fun e p => e.setGlobal p.name (.procedure (.primitive p)))
    (Engine.new () (.recorder []) 10 false)).setGlobal "n" (.text "old")
    |>.setGlobal "x" (.procedure (.defined 0 "x" [] body))

/-- The host assigns `n` while the loop waits to begin its pass. -/
def assigned (d : Drive Unit) : Drive Unit := { d with engine := d.engine.setGlobal "n" (.text "new") }

end Trial

/-- The loop prints the old value, and what it assigns is lost to the global name. -/
theorem setGlobal_missed_by_tied :
    let d := (Trial.assigned ((Drive.start Trial.tied "x").make (.poll 100))).make (.poll 100)
    d.outcome? = some (.ok none) ∧ d.engine.sink.chunks = ["old\n"] ∧
      d.engine.global? "n" = some (.text "new") := by
  have hd : (Drive.start Trial.tied "x").make (.poll 100)
      = (Drive.begun Trial.tied [.text "x"]).make (.poll 100) :=
    Drive.start_make_poll rfl Trial.parse_x 100
  rw [hd]
  refine ⟨?_, ?_, ?_⟩
  · cbv
  · cbv
  · cbv

end Logo
